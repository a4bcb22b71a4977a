import Fletcher.Lib.Reader

/-!
# Cursors

A reader that goes by position: the data stays where it is and a position moves over it. A
cursor may go past the end, and it may look at bytes it has long passed, so what it returns is
not a function of the bytes that are left, and `Reads` cannot be said of it.

`Meets x pos len good P` takes its place. From `pos`, the cursor returns something that
satisfies `P` exactly when `good` holds, and then it has moved by `len`. It composes through
`bind` where what the whole returns tells that its first part went well.
-/

namespace Lib

variable {c : Prop} {len' : Nat}

/-- The piece stands at the position of the data. -/
def At {γ : Type} (data : List γ) (pos : Nat) (piece : List γ) : Prop :=
  ∃ pre rest, data = pre ++ (piece ++ rest) ∧ pre.length = pos

theorem At.left {γ : Type} {data piece piece' : List γ} {pos : Nat}
    (h : At data pos (piece ++ piece')) : At data pos piece := by
  obtain ⟨pre, rest, rfl, rfl⟩ := h
  exact ⟨pre, piece' ++ rest, by simp, rfl⟩

theorem At.right {γ : Type} {data piece piece' : List γ} {pos : Nat}
    (h : At data pos (piece ++ piece')) : At data (pos + piece.length) piece' := by
  obtain ⟨pre, rest, rfl, rfl⟩ := h
  exact ⟨pre ++ piece, rest, by simp, by simp⟩

/-- A cursor failing with `ε` and returning `α`, from a position to a position. -/
def Cursor (ε α : Type) := Nat → Except ε (α × Nat)

namespace Cursor

variable {ε α β : Type} {a : α} {f : α → Cursor ε β} {pos' : Nat}

instance : Monad (Cursor ε) where
  pure a := fun pos => .ok (a, pos)
  bind x f := fun pos =>
    match x pos with
    | .ok (a, pos') => f a pos'
    | .error e => .error e

def fail (e : ε) : Cursor ε α := fun _ => .error e

@[simp] theorem pure_apply (a : α) (pos : Nat) : (pure a : Cursor ε α) pos = .ok (a, pos) := rfl

theorem bind_apply (x : Cursor ε α) (f : α → Cursor ε β) (pos : Nat) :
    (x >>= f) pos = match x pos with
      | .ok (a, pos') => f a pos'
      | .error e => .error e := rfl

theorem bind_of_ok {x : Cursor ε α} {pos : Nat}
    (h : x pos = .ok (a, pos')) : (x >>= f) pos = f a pos' := by
  rw [bind_apply, h]

theorem bind_eq_ok {x : Cursor ε α} {pos : Nat} {b : β} :
    (x >>= f) pos = .ok (b, pos') ↔ ∃ a mid, x pos = .ok (a, mid) ∧ f a mid = .ok (b, pos') := by
  rw [bind_apply]
  cases hx : x pos with
  | error e => simp
  | ok p => obtain ⟨a, mid⟩ := p; simp

theorem pure_eq_ok {b : α} {pos : Nat} :
    (pure a : Cursor ε α) pos = .ok (b, pos') ↔ a = b ∧ pos = pos' := by simp

/-- From `pos` the cursor returns what satisfies `P` if and only if `good`, and then moves by
`len`. -/
structure Meets (x : Cursor ε α) (pos len : Nat) (good : Prop) (P : α → Prop) : Prop where
  sound : ∀ a pos', x pos = .ok (a, pos') → P a → good
  complete : good → ∃ a, x pos = .ok (a, pos + len) ∧ P a

variable {x : Cursor ε α} {pos len : Nat} {good : Prop} {P : α → Prop}

theorem meets_pure (h : P a ↔ good) : Meets (pure a : Cursor ε α) pos 0 good P where
  sound b pos' hb hP := by
    obtain ⟨rfl, -⟩ := pure_eq_ok.mp hb
    exact h.mp hP
  complete hgood := ⟨a, rfl, h.mpr hgood⟩

theorem Meets.congr (h : Meets x pos len good P) (hiff : good ↔ c) :
    Meets x pos len c P := propext hiff ▸ h

theorem Meets.of_iff {Q : α → Prop} (h : Meets x pos len good P) (hiff : ∀ a, P a ↔ Q a) :
    Meets x pos len good Q := by
  have heq : P = Q := funext fun a => propext (hiff a)
  exact heq ▸ h

/-- What a good run has returned is what any run from there returns. -/
theorem Meets.returns (h : Meets x pos len good P)
    (hx : x pos = .ok (a, pos')) (hP : P a) : good ∧ pos' = pos + len := by
  have hgood := h.sound a pos' hx hP
  obtain ⟨_, hx', -⟩ := h.complete hgood
  rw [hx] at hx'
  cases hx'
  exact ⟨hgood, rfl⟩

/-- A step whose result is known. -/
theorem Meets.after {Q : β → Prop}
    (hx : x pos = .ok (a, pos + len)) (hf : Meets (f a) (pos + len) len' good Q) :
    Meets (x >>= f) pos (len + len') good Q where
  sound b pos' hb hQ := by
    rw [bind_of_ok hx] at hb
    exact hf.sound b pos' hb hQ
  complete hgood := by
    obtain ⟨b, hb, hQ⟩ := hf.complete hgood
    exact ⟨b, by rw [bind_of_ok hx, hb, Nat.add_assoc], hQ⟩

/-- One part after the other, where the result of the whole shows that the first has met its
own condition. -/
theorem Meets.bind {Q : β → Prop} (hx : Meets x pos len good P)
    (hback : ∀ a mid b pos', x pos = .ok (a, mid) → f a mid = .ok (b, pos') → Q b → P a)
    (hf : ∀ a, x pos = .ok (a, pos + len) → P a → Meets (f a) (pos + len) len' c Q) :
    Meets (x >>= f) pos (len + len') (good ∧ c) Q where
  sound b pos' hb hQ := by
    obtain ⟨a, mid, ha, hb⟩ := bind_eq_ok.mp hb
    have hP := hback a mid b pos' ha hb hQ
    obtain ⟨hgood, rfl⟩ := hx.returns ha hP
    exact ⟨hgood, (hf a ha hP).sound b pos' hb hQ⟩
  complete hgood := by
    obtain ⟨a, ha, hP⟩ := hx.complete hgood.1
    obtain ⟨b, hb, hQ⟩ := (hf a ha hP).complete hgood.2
    exact ⟨b, by rw [bind_of_ok ha, hb, Nat.add_assoc], hQ⟩

/-- A result that is only dressed up. -/
theorem Meets.map {g : α → β} {Q : β → Prop} (hx : Meets x pos len good P)
    (h : ∀ a mid, x pos = .ok (a, mid) → (Q (g a) ↔ c ∧ P a)) :
    Meets (x >>= fun a => pure (g a)) pos len (c ∧ good) Q where
  sound b pos' hb hQ := by
    obtain ⟨a, mid, ha, hret⟩ := bind_eq_ok.mp hb
    obtain ⟨rfl, rfl⟩ := pure_eq_ok.mp hret
    obtain ⟨hc, hP⟩ := (h a mid ha).mp hQ
    exact ⟨hc, hx.sound a mid ha hP⟩
  complete hgood := by
    obtain ⟨a, ha, hP⟩ := hx.complete hgood.2
    exact ⟨g a, by rw [bind_of_ok ha]; rfl, (h a _ ha).mpr ⟨hgood.1, hP⟩⟩

/-- One more result in front of a list of results. -/
theorem Meets.cons {y : Cursor ε (List α)} {good' : Prop} {Q : List α → Prop}
    (hx : Meets x pos len good P) (hy : Meets y (pos + len) len' good' Q) :
    Meets (x >>= fun a => y >>= fun as => pure (a :: as)) pos (len + len') (good ∧ good')
      fun as => ∃ a as', as = a :: as' ∧ P a ∧ Q as' := by
  refine hx.bind ?_ fun a _ hP => ?_
  · intro a mid as _ _ hret hshow
    obtain ⟨as', _, -, hpure⟩ := bind_eq_ok.mp hret
    obtain ⟨rfl, -⟩ := pure_eq_ok.mp hpure
    obtain ⟨_, _, heq, hP, -⟩ := hshow
    cases heq
    exact hP
  · have hmap := hy.map (g := fun as => a :: as) (c := True)
      (Q := fun as => ∃ a as', as = a :: as' ∧ P a ∧ Q as') fun as mid _ => ?_
    · exact hmap.congr (and_iff_right trivial)
    · constructor
      · rintro ⟨_, _, heq, -, hQ⟩
        cases heq
        exact ⟨trivial, hQ⟩
      · rintro ⟨-, hQ⟩
        exact ⟨a, as, rfl, hP, hQ⟩

end Cursor

end Lib
