import Fletcher.Lib.Reader

/-!
# Computations with fuel

A recursion that nothing bounds is given fuel, and fails when it runs out. `Below x y` is the
order that makes fuel harmless: `y` returns whatever `x` returns. Every way of putting
computations together keeps it, so that it passes from one unit of fuel to the next through a
whole recursion, and then a result is a result whatever fuel it was found with.
-/

namespace Lib

open List

variable {ε α β : Type} {f : Nat → Except ε α} {a : α}

/-- `y` returns whatever `x` returns. -/
def Below (x y : Except ε α) : Prop := ∀ a, x = .ok a → y = .ok a

theorem Below.refl (x : Except ε α) : Below x x := fun _ h => h

theorem Below.trans {x y z : Except ε α} (hxy : Below x y) (hyz : Below y z) : Below x z :=
  fun a h => hyz a (hxy a h)

theorem below_error {e : ε} {y : Except ε α} : Below (.error e) y := fun _ h => nomatch h

theorem Below.bind {x y : Except ε α} {f g : α → Except ε β} (hxy : Below x y)
    (hfg : ∀ a, Below (f a) (g a)) : Below (x >>= f) (y >>= g) := by
  intro b hb
  obtain ⟨a, ha, hf⟩ := bind_eq_ok_iff.mp hb
  exact bind_eq_ok_iff.mpr ⟨a, hxy a ha, hfg a b hf⟩

theorem Below.mapM {f g : α → Except ε β} {as : List α} (h : ∀ a, Below (f a) (g a)) :
    Below (as.mapM f) (as.mapM g) := by
  intro _ hbs
  exact mapM_eq_ok_iff.mpr ((mapM_eq_ok_iff.mp hbs).imp fun a b => h a b)

/-- More fuel changes no result. -/
theorem below_of_le (h : ∀ k, Below (f k) (f (k + 1))) {k k' : Nat}
    (hle : k ≤ k') : Below (f k) (f k') := by
  induction hle with
  | refl => exact .refl _
  | step _ ih => exact ih.trans (h _)

/-- Two results found with different fuel are one. -/
theorem eq_of_fuel (h : ∀ k, Below (f k) (f (k + 1))) {k k' : Nat} {b : α}
    (ha : f k = .ok a) (hb : f k' = .ok b) : a = b := by
  have ha' := below_of_le h (Nat.le_max_left k k') a ha
  have hb' := below_of_le h (Nat.le_max_right k k') b hb
  rw [ha'] at hb'
  exact Except.ok.inj hb'

theorem Below.foldlM {σ : Type} {f g : σ → α → Except ε σ} (h : ∀ s a, Below (f s a) (g s a)) :
    ∀ (as : List α) (s : σ), Below (as.foldlM f s) (as.foldlM g s)
  | [], _ => .refl _
  | a :: as, s => by
    rw [foldlM_cons, foldlM_cons]
    exact Below.bind (h s a) fun s' => Below.foldlM h as s'

/-! ## Enough fuel -/

/-- With enough fuel, and with any more than that, the computation returns `a`. -/
def Settles (f : Nat → Except ε α) (a : α) : Prop := ∃ enough, ∀ k, enough ≤ k → f k = .ok a

theorem Settles.ok (a : α) : Settles (fun _ => (.ok a : Except ε α)) a := ⟨0, fun _ _ => rfl⟩

theorem Settles.congr {g : Nat → Except ε α} (h : ∀ k, f k = g k) (hg : Settles g a) :
    Settles f a := by
  obtain ⟨enough, hg⟩ := hg
  exact ⟨enough, fun k hk => (h k).trans (hg k hk)⟩

/-- A computation that hands one unit of its fuel on. -/
theorem Settles.succ (h : Settles (fun k => f (k + 1)) a) : Settles f a := by
  obtain ⟨enough, h⟩ := h
  refine ⟨enough + 1, fun k hk => ?_⟩
  cases k with
  | zero => omega
  | succ k => exact h k (by omega)

theorem Settles.shift (h : Settles f a) : Settles (fun k => f (k + 1)) a := by
  obtain ⟨enough, h⟩ := h
  exact ⟨enough, fun k hk => h (k + 1) (by omega)⟩

theorem Settles.bind {g : Nat → α → Except ε β} {b : β}
    (hf : Settles f a) (hg : Settles (fun k => g k a) b) : Settles (fun k => f k >>= g k) b := by
  obtain ⟨enough, hf⟩ := hf
  obtain ⟨enough', hg⟩ := hg
  refine ⟨max enough enough', fun k hk => ?_⟩
  show (f k >>= g k) = .ok b
  rw [hf k (by omega)]
  exact hg k (by omega)

theorem Settles.map (h : Settles f a) (g : α → β) :
    Settles (fun k => f k >>= fun a => pure (g a)) (g a) := h.bind (.ok (g a))

theorem Settles.unique {b : α} (ha : Settles f a) (hb : Settles f b) : a = b := by
  obtain ⟨enough, ha⟩ := ha
  obtain ⟨enough', hb⟩ := hb
  have heq := (ha _ (Nat.le_max_left enough enough')).symm.trans (hb _ (Nat.le_max_right _ _))
  cases heq
  rfl

/-- What settles returns. -/
theorem Settles.returns (h : Settles f a) : ∃ k, f k = .ok a := by
  obtain ⟨enough, h⟩ := h
  exact ⟨enough, h enough (Nat.le_refl _)⟩

/-- Where more fuel changes no result, what returns settles. -/
theorem settles_of_ok (h : ∀ k, Below (f k) (f (k + 1))) {k : Nat}
    (hk : f k = .ok a) : Settles f a := ⟨k, fun _ hle => below_of_le h hle a hk⟩

theorem Settles.mapM_map {f : Nat → α → Except ε β} {g : α → β}
    (h : ∀ a, Settles (fun k => f k a) (g a)) :
    ∀ as : List α, Settles (fun k => as.mapM (f k)) (as.map g)
  | [] => ⟨0, fun _ _ => rfl⟩
  | a :: as => by
    simp only [mapM_cons]
    exact (h a).bind ((Settles.mapM_map h as).bind (.ok _))

/-- With enough fuel the computation returns. -/
def Halts (f : Nat → Except ε α) : Prop := ∃ a, Settles f a

namespace Halts

theorem ok (a : α) : Halts fun _ => (.ok a : Except ε α) := ⟨a, .ok a⟩

theorem congr {g : Nat → Except ε α} (h : ∀ k, f k = g k) (hg : Halts g) : Halts f :=
  hg.imp fun _ => Settles.congr h

theorem succ (h : Halts fun k => f (k + 1)) : Halts f := h.imp fun _ => Settles.succ

theorem shift (h : Halts f) : Halts fun k => f (k + 1) := h.imp fun _ => Settles.shift

theorem returns (h : Halts f) : ∃ k a, f k = .ok a := by
  obtain ⟨a, ha⟩ := h
  obtain ⟨k, hk⟩ := ha.returns
  exact ⟨k, a, hk⟩

theorem bind {g : Nat → α → Except ε β} (hf : Halts f)
    (hg : ∀ a, Settles f a → Halts (g · a)) : Halts fun k => f k >>= g k := by
  obtain ⟨a, ha⟩ := hf
  obtain ⟨b, hb⟩ := hg a ha
  exact ⟨b, ha.bind hb⟩

theorem map (h : Halts f) (g : α → β) : Halts fun k => f k >>= fun a => pure (g a) :=
  h.bind fun a _ => ok (g a)

theorem mapM {f : Nat → α → Except ε β} {as : List α} (h : ∀ a ∈ as, Halts (f · a)) :
    Halts fun k => as.mapM (f k) := by
  induction as with
  | nil => exact ok []
  | cons a as ih =>
    simp only [mapM_cons]
    refine (h a mem_cons_self).bind fun b _ => ?_
    exact (ih fun a' ha' => h a' (mem_cons_of_mem a ha')).map (b :: ·)

theorem foldlM {σ : Type} {f : Nat → σ → α → Except ε σ} {as : List α}
    (h : ∀ a ∈ as, ∀ s, Halts (f · s a)) (s : σ) : Halts fun k => as.foldlM (f k) s := by
  induction as generalizing s with
  | nil => exact ok s
  | cons a as ih =>
    simp only [foldlM_cons]
    exact (h a mem_cons_self s).bind fun s' _ => ih (fun a' ha' => h a' (mem_cons_of_mem a ha')) s'

end Halts

/-- The first result there is, in order. -/
def firstM (f : α → Except ε (Option β)) : List α → Except ε (Option β)
  | [] => .ok none
  | a :: as => do
    match ← f a with
    | some b => pure (some b)
    | none => firstM f as

theorem Below.firstM {f g : α → Except ε (Option β)} (h : ∀ a, Below (f a) (g a)) :
    ∀ as : List α, Below (Lib.firstM f as) (Lib.firstM g as)
  | [] => .refl _
  | a :: as => by
    rw [Lib.firstM, Lib.firstM]
    refine Below.bind (h a) fun b => ?_
    cases b with
    | some b => exact .refl _
    | none => exact Below.firstM h as

theorem Halts.firstM {f : Nat → α → Except ε (Option β)} {as : List α}
    (h : ∀ a ∈ as, Halts (f · a)) : Halts fun k => Lib.firstM (f k) as := by
  induction as with
  | nil => exact .ok none
  | cons a as ih =>
    refine (h a mem_cons_self).bind fun b _ => ?_
    cases b with
    | some b => exact .ok (some b)
    | none => exact ih fun a' ha' => h a' (mem_cons_of_mem a ha')

end Lib
