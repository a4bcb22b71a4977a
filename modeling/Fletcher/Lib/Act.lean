/-!
# Computations that throw and keep their state

Code that changes objects in place and throws half way leaves behind what it had changed.
`Act` is that: a result or an exception, and in both cases the state reached. `Ends` is
the logic for it, with one postcondition for each way out.
-/

namespace Lib

/-- A computation over a state: what it returns or throws, and the state it leaves. -/
def Act (σ ε α : Type) := σ → Except ε α × σ

namespace Act

variable {σ ε α β : Type} {m : Act σ ε α} {s : σ}

protected def pure (a : α) : Act σ ε α := fun s => (.ok a, s)

protected def bind (m : Act σ ε α) (f : α → Act σ ε β) : Act σ ε β := fun s =>
  match m s with
  | (.ok a, s') => f a s'
  | (.error e, s') => (.error e, s')

instance : Monad (Act σ ε) where
  pure := Act.pure
  bind := Act.bind

def get : Act σ ε σ := fun s => (.ok s, s)

def modify (f : σ → σ) : Act σ ε Unit := fun s => (.ok (), f s)

def throw (e : ε) : Act σ ε α := fun s => (.error e, s)

def lift (r : Except ε α) : Act σ ε α := fun s => (r, s)

theorem bind_of_ok {f : α → Act σ ε β} {s' : σ} {a : α}
    (h : m s = (.ok a, s')) : (m >>= f) s = f a s' := by
  show Act.bind m f s = f a s'
  rw [Act.bind, h]

theorem bind_of_error {f : α → Act σ ε β} {s' : σ} {e : ε}
    (h : m s = (.error e, s')) : (m >>= f) s = (.error e, s') := by
  show Act.bind m f s = _
  rw [Act.bind, h]

@[simp] theorem pure_bind (a : α) (f : α → Act σ ε β) (s : σ) :
    ((pure a : Act σ ε α) >>= f) s = f a s := rfl

@[simp] theorem get_bind (f : σ → Act σ ε α) (s : σ) : (get >>= f) s = f s s := rfl

@[simp] theorem lift_ok_bind (a : α) (f : α → Act σ ε β) (s : σ) :
    ((lift (.ok a) : Act σ ε α) >>= f) s = f a s := rfl

@[simp] theorem lift_error_bind (e : ε) (f : α → Act σ ε β) (s : σ) :
    ((lift (.error e) : Act σ ε α) >>= f) s = (.error e, s) := rfl

theorem bind_assoc {γ : Type} (f : α → Act σ ε β) (g : β → Act σ ε γ) :
    (m >>= f) >>= g = m >>= fun a => f a >>= g := by
  funext s
  show Act.bind (Act.bind m f) g s = Act.bind m (fun a => Act.bind (f a) g) s
  unfold Act.bind
  cases m s with
  | mk r _ =>
    cases r with
    | ok a => rfl
    | error e => rfl

/-! ## How a run ends -/

/-- `Q` of what was returned or `E` of what was thrown, and of the state that was left. -/
def Ends (Q : α → σ → Prop) (E : ε → σ → Prop) : Except ε α × σ → Prop
  | (.ok a, s) => Q a s
  | (.error e, s) => E e s

namespace Ends

variable {Q Q' : α → σ → Prop} {R : β → σ → Prop} {E E' : ε → σ → Prop}

theorem bind {f : α → Act σ ε β} (hm : Ends Q E (m s))
    (hf : ∀ a s', Q a s' → Ends R E (f a s')) : Ends R E ((m >>= f) s) := by
  cases h : m s with
  | mk r s' =>
    rw [h] at hm
    cases r with
    | ok a =>
      rw [bind_of_ok h]
      exact hf a s' hm
    | error e =>
      rw [bind_of_error h]
      exact hm

theorem weaken {r : Except ε α × σ} (h : Ends Q E r) (hQ : ∀ a s, Q a s → Q' a s)
    (hE : ∀ e s, E e s → E' e s) : Ends Q' E' r := by
  obtain ⟨r, s⟩ := r
  cases r with
  | ok a => exact hQ a s h
  | error e => exact hE e s h

/-- What holds on both ways out holds at the end. -/
theorem always {P : σ → Prop} {r : Except ε α × σ} (h : Ends (fun _ => P) (fun _ => P) r) :
    P r.2 := by
  obtain ⟨r, s⟩ := r
  cases r with
  | ok _ => exact h
  | error _ => exact h

/-- A run that cannot have thrown has returned. -/
theorem returns {r : Except ε Unit × σ} {Q : Unit → σ → Prop} (h : Ends Q (fun _ _ => False) r) :
    ∃ s, r = (.ok (), s) ∧ Q () s := by
  obtain ⟨r, s⟩ := r
  cases r with
  | ok _ => exact ⟨s, rfl, h⟩
  | error _ => exact h.elim

end Ends

end Act

end Lib
