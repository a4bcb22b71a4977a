import Mathlib.Data.Option.Basic

/-!
# Machines that step

A machine is a partial step function on states, driven by labels. `run` plays a
list of labels; `Reaches` forgets which. A state property that one step keeps is
kept by every run, and that induction is done here once.
-/

namespace Lib

universe u v

variable {σ : Type u} {α : Type v} {next : σ → α → Option σ} {s s' s'' : σ}

/-- Play a list of labels, stopping at the first one that is not enabled. -/
def run (next : σ → α → Option σ) : σ → List α → Option σ
  | s, [] => some s
  | s, a :: as => (next s a).bind fun s' => run next s' as

@[simp] theorem run_nil : run next s [] = some s := rfl

@[simp] theorem run_cons (a : α) (as : List α) :
    run next s (a :: as) = (next s a).bind fun s' => run next s' as := rfl

theorem run_append (as bs : List α) :
    run next s (as ++ bs) = (run next s as).bind fun s' => run next s' bs := by
  induction as generalizing s with
  | nil => rfl
  | cons a as ih =>
    cases h : next s a with
    | none => simp [h]
    | some t => simpa [h] using ih

/-- Some run leads from `s` to `s'`. -/
def Reaches (next : σ → α → Option σ) (s s' : σ) : Prop := ∃ as, run next s as = some s'

theorem Reaches.refl (next : σ → α → Option σ) (s : σ) : Reaches next s s := ⟨[], rfl⟩

theorem Reaches.trans (h : Reaches next s s') (h' : Reaches next s' s'') : Reaches next s s'' := by
  obtain ⟨as, has⟩ := h
  obtain ⟨bs, hbs⟩ := h'
  exact ⟨as ++ bs, by simp [run_append, has, hbs]⟩

theorem Reaches.single {a : α} (h : next s a = some s') : Reaches next s s' := ⟨[a], by simp [h]⟩

/-- What one step preserves, a run preserves. -/
theorem run_preserves {P : σ → Prop} (hstep : ∀ {s a s'}, P s → next s a = some s' → P s')
    {as : List α} (hs : P s) (h : run next s as = some s') : P s' := by
  induction as generalizing s with
  | nil =>
    obtain rfl : s = s' := by simpa using h
    exact hs
  | cons a as ih =>
    obtain ⟨t, ht, hrest⟩ := Option.bind_eq_some_iff.mp h
    exact ih (hstep hs ht) hrest

theorem Reaches.preserves {P : σ → Prop} (hstep : ∀ {s a s'}, P s → next s a = some s' → P s')
    (hs : P s) (h : Reaches next s s') : P s' :=
  run_preserves hstep hs h.choose_spec

/-! ## Machines with output -/

section Output

variable {τ : Type*} {γ : Type*}

/-- What a machine that answers every label answers to a list of them. -/
def outputs (step : σ → α → γ × σ) : σ → List α → List γ
  | _, [] => []
  | s, a :: as => (step s a).1 :: outputs step (step s a).2 as

@[simp] theorem outputs_nil (step : σ → α → γ × σ) : outputs step s [] = [] := rfl

@[simp] theorem outputs_cons (step : σ → α → γ × σ) (a : α) (as : List α) :
    outputs step s (a :: as) = (step s a).1 :: outputs step (step s a).2 as := rfl

/-- Two machines whose states stay related answer alike, the labels of one read as labels
of the other by `f`. -/
theorem outputs_eq_of_simulates {β : Type*} {step : σ → α → γ × σ} {step' : τ → β → γ × τ}
    {R : σ → τ → Prop} {f : α → β} {as : List α}
    (hstep : ∀ s t, R s t → ∀ a ∈ as,
      (step s a).1 = (step' t (f a)).1 ∧ R (step s a).2 (step' t (f a)).2)
    {t : τ} (hs : R s t) : outputs step s as = outputs step' t (as.map f) := by
  induction as generalizing s t with
  | nil => rfl
  | cons a as ih =>
    obtain ⟨hout, hnext⟩ := hstep s t hs a List.mem_cons_self
    rw [List.map_cons, outputs_cons, outputs_cons, hout]
    congr 1
    exact ih (fun s t h b hb => hstep s t h b (List.mem_cons_of_mem _ hb)) hnext

end Output

end Lib
