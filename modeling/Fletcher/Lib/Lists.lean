import Mathlib.Data.List.Forall2

/-!
# Facts about lists

Pointwise relations looked up by position, and the shapes the loops of a codec
leave behind: runs of equal-width chunks, and lists walked by index.
-/

namespace Lib

open List

variable {α β : Type*} {R : α → β → Prop} {i : Nat} {pieces : List (List α)}

/-! ## Pointwise relations by position -/

theorem forall₂_getElem?_right : ∀ {as : List α} {bs : List β} {k : Nat} {b : β},
    Forall₂ R as bs → bs[k]? = some b → ∃ a, as[k]? = some a ∧ R a b
  | _, _, 0, _, .cons h _, hb => by
    injection hb with hb; subst hb
    exact ⟨_, rfl, h⟩
  | _, _, _ + 1, _, .cons _ hs, hb => by
    obtain ⟨a, ha, hR⟩ := forall₂_getElem?_right hs hb
    exact ⟨a, ha, hR⟩

theorem forall₂_getElem?_left {as : List α} {bs : List β} {k : Nat} {a : α}
    (h : Forall₂ R as bs) (ha : as[k]? = some a) : ∃ b, bs[k]? = some b ∧ R a b :=
  forall₂_getElem?_right h.flip ha

/-- The two lists have an element at `k` together. -/
theorem forall₂_getElem? {as : List α} {bs : List β} (h : Forall₂ R as bs)
    (k : Nat) : (∃ a b, as[k]? = some a ∧ bs[k]? = some b ∧ R a b) ∨
      (as[k]? = none ∧ bs[k]? = none) := by
  cases ha : as[k]? with
  | some a =>
    obtain ⟨b, hb, hR⟩ := forall₂_getElem?_left h ha
    exact .inl ⟨a, b, rfl, hb, hR⟩
  | none =>
    rw [List.getElem?_eq_none_iff, h.length_eq, ← List.getElem?_eq_none_iff] at ha
    exact .inr ⟨rfl, ha⟩

theorem forall_getElem?_pair {a b : α} {P : Nat → α → Prop} :
    (∀ k x, [a, b][k]? = some x → P k x) ↔ P 0 a ∧ P 1 b := by
  refine ⟨fun h => ⟨h 0 a rfl, h 1 b rfl⟩, ?_⟩
  rintro ⟨ha, hb⟩ k x hx
  match k, hx with
  | 0, rfl => exact ha
  | 1, rfl => exact hb

theorem forall_getElem?_singleton {a : α} {P : Nat → α → Prop} :
    (∀ k x, [a][k]? = some x → P k x) ↔ P 0 a := by
  refine ⟨fun h => h 0 a rfl, ?_⟩
  intro ha k x hx
  match k, hx with
  | 0, rfl => exact ha

theorem forall₂_imp_mem {S : α → β → Prop} : ∀ {as : List α} {bs : List β},
    Forall₂ R as bs → (∀ a ∈ as, ∀ b, R a b → S a b) → Forall₂ S as bs
  | _, _, .nil, _ => .nil
  | _, _, .cons h hs, hRS =>
    .cons (hRS _ (by simp) _ h) (forall₂_imp_mem hs fun a ha => hRS a (by simp [ha]))

theorem forall_mem_of_forall₂ {P : α → Prop} {as : List α} {bs : List β}
    (h : Forall₂ (fun a _ => P a) as bs) : ∀ a ∈ as, P a := by
  intro a ha
  obtain ⟨k, hk⟩ := mem_iff_getElem?.mp ha
  obtain ⟨_, -, hP⟩ := forall₂_getElem?_left h hk
  exact hP

/-- On related lists, relations that agree where the first holds hold together. -/
theorem forall₂_congr_mem {S T : α → β → Prop} : ∀ {as : List α} {bs : List β},
    Forall₂ R as bs → (∀ a ∈ as, ∀ b, R a b → (S a b ↔ T a b)) →
    (Forall₂ S as bs ↔ Forall₂ T as bs)
  | _, _, .nil, _ => iff_of_true .nil .nil
  | _, _, .cons h hs, hST => by
    rw [forall₂_cons, forall₂_cons, hST _ (by simp) _ h,
      forall₂_congr_mem hs fun a ha => hST a (by simp [ha])]

/-- Two lists related to a third are related to each other. -/
theorem forall₂_join {γ : Type*} {S : α → γ → Prop} {Q : β → γ → Prop} :
    ∀ {as : List α} {bs : List β} {cs : List γ}, Forall₂ R as bs → Forall₂ S as cs →
    (∀ a ∈ as, ∀ b c, R a b → S a c → Q b c) → Forall₂ Q bs cs
  | _, _, _, .nil, .nil, _ => .nil
  | _, _, _, .cons hb hbs, .cons hc hcs, h =>
    .cons (h _ (by simp) _ _ hb hc) (forall₂_join hbs hcs fun a ha => h a (by simp [ha]))

theorem forall₂_and_right {P : β → Prop} : ∀ {as : List α} {bs : List β},
    Forall₂ R as bs → (∀ b ∈ bs, P b) → Forall₂ (fun a b => R a b ∧ P b) as bs
  | _, _, .nil, _ => .nil
  | _, _, .cons h hs, hP =>
    .cons ⟨h, hP _ (by simp)⟩ (forall₂_and_right hs fun b hb => hP b (by simp [hb]))

/-- Zipping two related lists gives results related to the first. -/
theorem forall₂_zipWith {γ : Type*} {S : α → γ → Prop} {g : α → β → γ} :
    ∀ {as : List α} {bs : List β}, Forall₂ R as bs →
    (∀ a ∈ as, ∀ b, R a b → S a (g a b)) → Forall₂ S as (zipWith g as bs)
  | _, _, .nil, _ => .nil
  | _, _, .cons h hs, hS =>
    .cons (hS _ (by simp) _ h) (forall₂_zipWith hs fun a ha => hS a (by simp [ha]))

theorem forall₂_zipWith_iff {γ : Type*} {S : α → γ → Prop} {T : α → β → Prop} {g : α → β → γ} :
    ∀ {as : List α} {bs : List β}, Forall₂ R as bs →
    (∀ a ∈ as, ∀ b, R a b → (S a (g a b) ↔ T a b)) →
    (Forall₂ S as (zipWith g as bs) ↔ Forall₂ T as bs)
  | _, _, .nil, _ => by simp
  | _, _, .cons h hs, hS => by
    rw [zipWith_cons_cons, forall₂_cons, forall₂_cons, hS _ (by simp) _ h,
      forall₂_zipWith_iff hs fun a ha => hS a (by simp [ha])]

theorem zipWith_zipWith {γ δ : Type*} {f : α → γ → δ} {g : α → β → γ} {h : α → β → δ} :
    ∀ {as : List α} {bs : List β}, Forall₂ R as bs →
    (∀ a ∈ as, ∀ b, R a b → f a (g a b) = h a b) →
    zipWith f as (zipWith g as bs) = zipWith h as bs
  | _, _, .nil, _ => rfl
  | _, _, .cons hr hs, heq => by
    simp only [zipWith_cons_cons, heq _ mem_cons_self _ hr,
      zipWith_zipWith hs fun a ha => heq a (mem_cons_of_mem _ ha)]

theorem forall₂_replicate {a : α} {b : β} (h : R a b) : ∀ (n : Nat),
    Forall₂ R (replicate n a) (replicate n b)
  | 0 => .nil
  | n + 1 => .cons h (forall₂_replicate h n)

theorem zipWith_replicate_left {γ : Type*} {f : α → β → γ} {a : α} : ∀ {n : Nat} {bs : List β},
    bs.length = n → zipWith f (replicate n a) bs = bs.map (f a)
  | _, [], _ => zipWith_nil_right
  | _, b :: bs, rfl => by
    rw [length_cons, replicate_succ, zipWith_cons_cons, map_cons,
      zipWith_replicate_left rfl]

theorem getElem?_getD {l : List α} {d : α} (h : i < l.length) : l[i]? = some (l.getD i d) := by
  rw [getD_eq_getElem?_getD, getElem?_eq_getElem h]
  rfl

theorem getD_of_getElem? {l : List α} {a d : α} (h : l[i]? = some a) : l.getD i d = a := by
  rw [getD_eq_getElem?_getD, h]
  rfl

/-! ## Point updates -/

theorem modify_append_right (f : α → α) : ∀ (pre l : List α) (j : Nat),
    (pre ++ l).modify (pre.length + j) f = pre ++ l.modify j f
  | [], l, j => by simp
  | p :: pre, l, j => by
    rw [length_cons, Nat.add_right_comm, cons_append, modify_succ_cons,
      modify_append_right f pre l j, cons_append]

theorem modify_append_left (f : α → α) : ∀ (l post : List α) (j : Nat), j < l.length →
    (l ++ post).modify j f = l.modify j f ++ post
  | x :: l, post, 0, _ => rfl
  | x :: l, post, j + 1, h => by
    rw [cons_append, modify_succ_cons, modify_succ_cons, cons_append,
      modify_append_left f l post j (by simpa using h)]

theorem zipWith_set_right {γ : Type*} (f : α → β → γ) (b : β) : ∀ {as : List α} {bs : List β}
    {k : Nat} {a : α}, as[k]? = some a →
    zipWith f as (bs.set k b) = (zipWith f as bs).set k (f a b)
  | _ :: _, [], _, _, _ => by simp
  | x :: as, y :: bs, 0, a, h => by
    cases h
    rfl
  | x :: as, y :: bs, k + 1, a, h => by
    rw [set_cons_succ, zipWith_cons_cons, zipWith_cons_cons, set_cons_succ,
      zipWith_set_right f b (show as[k]? = some a from h)]

theorem zipWith_append_nils : ∀ (columns : List (List α)),
    zipWith (· ++ ·) columns (replicate columns.length []) = columns
  | [] => rfl
  | column :: columns => by
    rw [length_cons, replicate_succ, zipWith_cons_cons, append_nil,
      zipWith_append_nils columns]

/-! ## Pieces laid end to end -/

/-- Where each piece starts when the pieces are laid end to end. -/
def starts (pieces : List (List α)) : List Nat :=
  (List.range pieces.length).map fun i => (pieces.take i).flatten.length

@[simp] theorem starts_length (pieces : List (List α)) :
    (starts pieces).length = pieces.length := by
  simp [starts]

theorem starts_concat (pieces : List (List α)) (p : List α) :
    starts (pieces ++ [p]) = starts pieces ++ [pieces.flatten.length] := by
  unfold starts
  rw [length_append, length_singleton, List.range_succ, map_append, map_singleton,
    take_left]
  congr 1
  refine map_congr_left ?_
  intro i hi
  rw [take_append_of_le_length (Nat.le_of_lt (List.mem_range.mp hi))]

/-- Empty pieces all start where the pieces before them end. -/
theorem starts_append_nils (pieces : List (List α)) (n : Nat) :
    starts (pieces ++ replicate n []) =
      starts pieces ++ replicate n pieces.flatten.length := by
  induction n with
  | zero => simp
  | succ n ih =>
    rw [replicate_succ', ← append_assoc, starts_concat, ih, append_assoc,
      replicate_succ']
    simp

/-- The start of a piece, or the end of the last one. -/
theorem starts_getD (h : i ≤ pieces.length) :
    (starts pieces ++ [pieces.flatten.length]).getD i 0 = (pieces.take i).flatten.length := by
  rw [getD_eq_getElem?_getD]
  by_cases hi : i < pieces.length
  · rw [getElem?_append_left (by simpa using hi)]
    simp [starts, hi]
  · obtain rfl : i = pieces.length := by omega
    rw [getElem?_append_right (by simp)]
    simp

theorem take_succ_flatten_length {p : List α} (h : pieces[i]? = some p) :
    (pieces.take (i + 1)).flatten.length = (pieces.take i).flatten.length + p.length := by
  rw [take_add_one, h, flatten_append, length_append]
  simp

/-- A piece is found between its bounds. -/
theorem drop_take_flatten {p : List α} (h : pieces[i]? = some p) :
    (pieces.flatten.drop (pieces.take i).flatten.length).take p.length = p := by
  obtain ⟨hi, hp⟩ := List.getElem?_eq_some_iff.mp h
  have hspl : pieces = pieces.take i ++ p :: pieces.drop (i + 1) := by
    rw [← hp, ← drop_eq_getElem_cons hi, take_append_drop]
  have hflat : pieces.flatten =
      (pieces.take i).flatten ++ (p ++ (pieces.drop (i + 1)).flatten) := by
    conv_lhs => rw [hspl]
    rw [flatten_append, flatten_cons]
  rw [hflat, drop_left, take_left]

/-- Reading a stretch of positions one by one. -/
theorem map_range' {read : Nat → α} {l : List α} (h : ∀ j v, l[j]? = some v → read j = v)
    {start len : Nat} (hlen : start + len ≤ l.length) :
    (range' start len).map read = (l.drop start).take len := by
  refine ext_getElem (by simp; omega) ?_
  intro j _ _
  rw [getElem_map, getElem_range', getElem_take, getElem_drop, Nat.one_mul]
  exact h _ _ (getElem?_eq_getElem _)

/-- The piece between its bounds, read one by one. -/
theorem map_range'_piece (read : Nat → α) {p : List α}
    (h : ∀ j v, pieces.flatten[j]? = some v → read j = v) (hp : pieces[i]? = some p) :
    (range' (pieces.take i).flatten.length p.length).map read = p := by
  have hle : (pieces.take (i + 1)).flatten.length ≤ pieces.flatten.length := by
    conv_rhs => rw [← take_append_drop (i + 1) pieces, flatten_append, length_append]
    exact Nat.le_add_right _ _
  rw [take_succ_flatten_length hp] at hle
  rw [map_range' h hle, drop_take_flatten hp]

/-- Pieces of one length start at its multiples. -/
theorem take_flatten_length {w : Nat} (h : ∀ p ∈ pieces, p.length = w)
    (hi : i ≤ pieces.length) : (pieces.take i).flatten.length = i * w := by
  induction i with
  | zero => simp
  | succ i ih =>
    have hget : pieces[i]? = some pieces[i] := getElem?_eq_getElem (by omega)
    rw [take_succ_flatten_length hget, ih (by omega), h _ (mem_of_getElem? hget), Nat.succ_mul]

/-- Pairs of equal length add up to equal lengths. -/
theorem pairs_flatten_length : ∀ {pairs : List (List α × List α)},
    (∀ p ∈ pairs, p.1.length = p.2.length) →
    (pairs.map Prod.fst).flatten.length = (pairs.map Prod.snd).flatten.length
  | [], _ => rfl
  | p :: ps, h => by
    have hrest := pairs_flatten_length fun q hq => h q (mem_cons_of_mem p hq)
    simp only [map_cons, flatten_cons, length_append, hrest, h p mem_cons_self]

/-- Pieces that can be told apart from the front can be taken apart again. -/
theorem flatMap_inj_of_decoder {f : α → List β} {dec : List β → Option (α × List β)}
    (hnil : dec [] = none) (hdec : ∀ a rest, dec (f a ++ rest) = some (a, rest)) :
    ∀ {as bs : List α}, as.flatMap f = bs.flatMap f → as = bs
  | [], [], _ => rfl
  | [], b :: bs, h => by
    have hb := hdec b (bs.flatMap f)
    rw [← flatMap_cons, ← h, flatMap_nil, hnil] at hb
    cases hb
  | a :: as, bs, h => by
    have ha := hdec a (as.flatMap f)
    rw [← flatMap_cons, h] at ha
    cases bs with
    | nil => exact nomatch hnil.symm.trans ha
    | cons b bs =>
      rw [flatMap_cons, hdec] at ha
      obtain ⟨rfl, hrest⟩ := Prod.mk.inj (Option.some.inj ha)
      rw [flatMap_inj_of_decoder hnil hdec hrest.symm]

end Lib
