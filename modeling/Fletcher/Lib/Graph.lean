import Mathlib.Data.Fintype.EquivFin
import Mathlib.Logic.Relation
import Mathlib.Order.WellFounded

/-!
# Walks over a finite graph

A graph is given by the list of successors of each vertex. A recursion that follows every
edge ends exactly from the vertices that are `Grounded`: those below which there is no cycle.
A recursion that carries the path it came by, and stops where it meets that path again, ends
from every vertex, since a path without a repetition is no longer than the graph is large.

`revisits` is the test built on such a path: it answers whether a cycle can be reached.
-/

namespace Lib

open List

variable {α : Type}

def Edge (next : α → List α) (a b : α) : Prop := b ∈ next a

/-- Every walk from the vertex ends. -/
def Grounded (next : α → List α) (a : α) : Prop := Acc (fun b a => Edge next a b) a

variable {next : α → List α}

theorem Grounded.edge {a b : α} (h : Grounded next a) (hb : b ∈ next a) : Grounded next b :=
  Acc.inv h hb

theorem Grounded.reach {a b : α} (h : Grounded next a)
    (hab : Relation.ReflTransGen (Edge next) a b) : Grounded next b := by
  induction hab with
  | refl => exact h
  | tail _ hbc ih => exact ih.edge hbc

/-- What holds of a vertex when it holds of all that can be reached from it, holds of the
grounded ones. -/
theorem Grounded.induction {P : α → Prop} {a : α} (h : Grounded next a)
    (step : ∀ a, Grounded next a → (∀ b, Relation.TransGen (Edge next) a b → P b) → P a) : P a := by
  have hall : ∀ b, Relation.ReflTransGen (Edge next) a b → P b := by
    induction h with
    | intro a hacc ih =>
      have hbelow : ∀ b, Relation.TransGen (Edge next) a b → P b := by
        intro b hab
        obtain ⟨c, hac, hcb⟩ := Relation.TransGen.head'_iff.mp hab
        exact ih c hac b hcb
      intro b hab
      rcases Relation.reflTransGen_iff_eq_or_transGen.mp hab with rfl | hab
      · exact step b (Acc.intro b hacc) hbelow
      · exact hbelow b hab
  exact hall a .refl

/-- A grounded vertex is on no cycle. -/
theorem Grounded.no_cycle {a : α} (h : Grounded next a) : ¬ Relation.TransGen (Edge next) a a := by
  induction h with
  | intro a _ ih =>
    intro hcyc
    obtain ⟨b, hab, hba⟩ := Relation.TransGen.head'_iff.mp hcyc
    exact ih b hab (Relation.TransGen.tail' hba hab)

/-- In a finite graph nothing but a cycle keeps a walk from ending. -/
theorem grounded_iff [Finite α] {a : α} : Grounded next a ↔
      ∀ b, Relation.ReflTransGen (Edge next) a b → ¬ Relation.TransGen (Edge next) b b := by
  constructor
  · intro h b hab
    exact (h.reach hab).no_cycle
  · intro h
    -- below `a`, "comes later" is a strict order, and on a finite type that is well-founded
    let later : α → α → Prop := fun c b =>
      Relation.ReflTransGen (Edge next) a b ∧ Relation.TransGen (Edge next) b c
    have htrans : IsTrans α later :=
      ⟨fun c b d hcb hbd => ⟨hbd.1, Relation.TransGen.trans hbd.2 hcb.2⟩⟩
    have hirr : Std.Irrefl later := ⟨fun b hb => h b hb.1 hb.2⟩
    have hwf : WellFounded later := Finite.wellFounded_of_trans_of_irrefl later
    have hall : ∀ b, Relation.ReflTransGen (Edge next) a b → Grounded next b := by
      intro b
      induction b using hwf.induction with
      | _ b ih =>
        intro hab
        exact Acc.intro b fun c hbc => ih c ⟨hab, .single hbc⟩ (hab.tail hbc)
    exact hall a .refl

/-- A walk over edges of two kinds has one of the second kind on it, or is of the first. -/
theorem transGen_or {R S : α → α → Prop} {a b : α}
    (h : Relation.TransGen (fun x y => R x y ∨ S x y) a b) :
    Relation.TransGen R a b ∨ ∃ x y, Relation.ReflTransGen (fun x y => R x y ∨ S x y) a x ∧ S x y ∧
      Relation.ReflTransGen (fun x y => R x y ∨ S x y) y b := by
  induction h with
  | single h =>
    rcases h with h | h
    · exact .inl (.single h)
    · exact .inr ⟨_, _, .refl, h, .refl⟩
  | tail hab hbc ih =>
    rcases ih with ih | ⟨x, y, hax, hxy, hyb⟩
    · rcases hbc with h | h
      · exact .inl (ih.tail h)
      · exact .inr ⟨_, _, hab.to_reflTransGen, h, .refl⟩
    · exact .inr ⟨x, y, hax, hxy, hyb.tail hbc⟩

/-- A recursion with fuel that needs each successor's answer has answers only where the graph
is grounded. -/
theorem grounded_of_fuel {P : Nat → α → Prop} (zero : ∀ a, ¬ P 0 a)
    (step : ∀ k a, P (k + 1) a → ∀ b ∈ next a, P k b) : ∀ {k : Nat} {a : α}, P k a →
    Grounded next a
  | 0, a, h => absurd h (zero a)
  | k + 1, a, h => Acc.intro a fun b hb => grounded_of_fuel zero step (step k a h b hb)

/-- A recursion that stops on its own path needs no more fuel than there are vertices. -/
theorem guarded [Fintype α] {P : Nat → List α → α → Prop}
    (hit : ∀ k path a, a ∈ path → P (k + 1) path a)
    (step : ∀ k path a, a ∉ path → (∀ b, P k (a :: path) b) → P (k + 1) path a) :
    ∀ {k : Nat} {path : List α} (a : α), path.Nodup → Fintype.card α < k + path.length → P k path a
  | 0, path, a, hpath, hk => by
    have := hpath.length_le_card
    omega
  | k + 1, path, a, hpath, hk => by
    by_cases ha : a ∈ path
    · exact hit k path a ha
    · refine step k path a ha fun b => ?_
      refine guarded hit step b (nodup_cons.mpr ⟨ha, hpath⟩) ?_
      rw [length_cons]
      omega

/-! ## The cycle test -/

section Test

variable [DecidableEq α]

/-- Whether a walk can come back to its own path. Out of fuel it answers yes. -/
def revisits (next : α → List α) : Nat → List α → α → Bool
  | 0, _, _ => true
  | k + 1, path, a => path.contains a || (next a).any (revisits next k (a :: path))

theorem grounded_of_revisits : ∀ {k : Nat} {path : List α} {a : α},
    revisits next k path a = false → Grounded next a
  | 0, _, _, h => nomatch h
  | k + 1, path, a, h => by
    rw [revisits, Bool.or_eq_false_iff, any_eq_false] at h
    refine Acc.intro a fun b hb => ?_
    exact grounded_of_revisits (Bool.eq_false_iff.mpr (h.2 b hb))

/-- From a grounded vertex the path is never met again. -/
theorem Grounded.revisits_eq_false [Fintype α] : ∀ {k : Nat} {path : List α} {a : α},
    Grounded next a → (∀ b ∈ path, Relation.TransGen (Edge next) b a) → path.Nodup →
    Fintype.card α < k + path.length → revisits next k path a = false
  | 0, path, a, _, _, hpath, hk => by
    have := hpath.length_le_card
    omega
  | k + 1, path, a, h, hrch, hpath, hk => by
    have ha : a ∉ path := fun ha => h.no_cycle (hrch a ha)
    rw [revisits, Bool.or_eq_false_iff, any_eq_false]
    refine ⟨by simpa using ha, fun b hb => Bool.eq_false_iff.mp ?_⟩
    refine (h.edge hb).revisits_eq_false ?_ (nodup_cons.mpr ⟨ha, hpath⟩) ?_
    · intro c hc
      rcases mem_cons.mp hc with rfl | hc
      · exact .single hb
      · exact (hrch c hc).tail hb
    · rw [length_cons]
      omega

theorem revisits_eq_false_iff [Fintype α] {k : Nat} {a : α} (hk : Fintype.card α < k) :
    revisits next k [] a = false ↔ Grounded next a := by
  refine ⟨grounded_of_revisits, fun h => ?_⟩
  refine h.revisits_eq_false ?_ nodup_nil (by simpa using hk)
  intro b hb
  cases hb

end Test

end Lib
