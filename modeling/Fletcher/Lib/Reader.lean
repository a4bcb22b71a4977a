import Fletcher.Lib.Bytes
import Fletcher.Lib.Lists

/-!
# Readers

A reader takes the bytes that are left, and either fails or hands back a value
and what is left after it. Three facts about a reader are worth having, and all
compose through `bind`:

* `Reads x bs a`: in front of *any* suffix, `x` consumes exactly `bs` and
  returns `a`. This is what a decoder owes its encoder. Quantifying over the
  suffix is what lets a field be read without knowing what follows it.
* `Yields x P`: whatever `x` returns satisfies `P`; and `Fails x Q`: whatever it fails
  with satisfies `Q`.

Two readers are compared by what they accept: `Same x y` when that is the same, `Keeps x y P`
when `x` puts the further check `P` on the result.

Every loop is one combinator, `runAll`, over the list of readers it runs; a
`slot` is a reader that is skipped when its null flag is set.
-/

namespace Lib

open List

/-! ## Sequencing results -/

section Except

variable {ε α β : Type} {a : α} {b : β} {e : ε} {as : List α}

@[simp] theorem ok_bind (a : α) (f : α → Except ε β) : (Except.ok a >>= f) = f a := rfl

@[simp] theorem error_bind (e : ε) (f : α → Except ε β) : (Except.error e >>= f) = .error e := rfl

theorem bind_eq_ok_iff {x : Except ε α} {f : α → Except ε β} :
    (x >>= f) = .ok b ↔ ∃ a, x = .ok a ∧ f a = .ok b := by
  cases x <;> simp

theorem bind_eq_error_iff {x : Except ε α} {f : α → Except ε β} :
    (x >>= f) = .error e ↔ x = .error e ∨ ∃ a, x = .ok a ∧ f a = .error e := by
  cases x <;> simp

theorem map_eq_ok_iff {x : Except ε α} {f : α → β} :
    x.map f = .ok b ↔ ∃ a, x = .ok a ∧ f a = b := by
  cases x <;> simp [Except.map]

/-- A `mapM` succeeds with the results of its items. -/
theorem mapM_eq_ok_iff {f : α → Except ε β} {bs : List β} :
    as.mapM f = .ok bs ↔ Forall₂ (fun a b => f a = .ok b) as bs := by
  induction as generalizing bs with
  | nil =>
    rw [mapM_nil, forall₂_nil_left_iff]
    exact ⟨fun h => (Except.ok.inj h).symm, fun h => h ▸ rfl⟩
  | cons a as ih =>
    rw [mapM_cons, bind_eq_ok_iff, forall₂_cons_left_iff]
    constructor
    · rintro ⟨b, hb, h⟩
      obtain ⟨cs, hcs, h⟩ := bind_eq_ok_iff.mp h
      exact ⟨b, cs, hb, ih.mp hcs, (Except.ok.inj h).symm⟩
    · rintro ⟨b, cs, hb, hcs, rfl⟩
      exact ⟨b, hb, bind_eq_ok_iff.mpr ⟨cs, ih.mpr hcs, rfl⟩⟩

/-- Every result of a successful `mapM` comes from an item. -/
theorem mapM_ok_mem {f : α → Except ε β} {bs : List β} (h : as.mapM f = .ok bs)
    (hb : b ∈ bs) : ∃ a ∈ as, f a = .ok b := by
  obtain ⟨k, hk⟩ := mem_iff_getElem?.mp hb
  obtain ⟨a, ha, hf⟩ := forall₂_getElem?_right (mapM_eq_ok_iff.mp h) hk
  exact ⟨a, mem_of_getElem? ha, hf⟩

/-- Where one function is another followed by `h`, so are their `mapM`s. -/
theorem mapM_map_congr {γ : Type} {f : α → Except ε γ} {g : α → Except ε β} {h : β → γ}
    (hfg : ∀ a ∈ as, f a = (g a).map h) :
    as.mapM f = (as.mapM g).map (List.map h) := by
  induction as with
  | nil => rfl
  | cons a as ih =>
    have hhead := hfg a mem_cons_self
    have htail := ih fun b hb => hfg b (mem_cons_of_mem a hb)
    rw [mapM_cons, mapM_cons, hhead, htail]
    cases g a with
    | error e => rfl
    | ok b => cases as.mapM g <;> rfl

end Except

/-! ## Readers -/

/-- A reader failing with `ε` and returning `α`. -/
def Reader (ε α : Type) := Bytes → Except ε (α × Bytes)

namespace Reader

variable {ε α β : Type} {x : Reader ε α} {f : α → Reader ε β} {bs rest : Bytes} {a : α} {b : β}
  {e : ε} {as : List α} {n : Nat} {P : α → Prop} {Q : β → Prop} {c : Nat → Bool}

instance : Monad (Reader ε) where
  pure a := fun bs => .ok (a, bs)
  bind x f := fun bs =>
    match x bs with
    | .ok (a, rest) => f a rest
    | .error e => .error e

/-- Fail without looking at the input. -/
def fail (e : ε) : Reader ε α := fun _ => .error e

/-- How many bytes are left. Consumes nothing. -/
def remaining : Reader ε Nat := fun bs => .ok (bs.length, bs)

/-- The next `n` bytes, or `e` when fewer are left. -/
def take (e : ε) (n : Nat) : Reader ε Bytes := fun bs =>
  if n ≤ bs.length then .ok (bs.take n, bs.drop n) else .error e

/-- Check a condition, failing with `e` when it does not hold. -/
def require (e : ε) (b : Bool) : Reader ε Unit := fun bs =>
  if b then .ok ((), bs) else .error e

/-- Lift a result that does not depend on the input. -/
def lift (r : Except ε α) : Reader ε α := fun bs => r.map (·, bs)

@[simp] theorem pure_apply (a : α) (bs : Bytes) : (pure a : Reader ε α) bs = .ok (a, bs) := rfl

@[simp] theorem fail_apply (e : ε) (bs : Bytes) : (fail e : Reader ε α) bs = .error e := rfl

@[simp] theorem remaining_apply :
    (remaining : Reader ε Nat) bs = .ok (bs.length, bs) := rfl

@[simp] theorem lift_ok (a : α) : (lift (.ok a) : Reader ε α) = pure a := rfl

@[simp] theorem lift_error (e : ε) : (lift (.error e) : Reader ε α) = fail e := rfl

theorem bind_apply (x : Reader ε α) (f : α → Reader ε β) (bs : Bytes) :
    (x >>= f) bs = match x bs with
      | .ok (a, rest) => f a rest
      | .error e => .error e := rfl

theorem bind_of_ok (h : x bs = .ok (a, rest)) : (x >>= f) bs = f a rest := by
  rw [bind_apply, h]

theorem bind_of_error (h : x bs = .error e) : (x >>= f) bs = .error e := by
  rw [bind_apply, h]

theorem bind_bind {γ : Type} (x : Reader ε α) (f : α → Reader ε β) (g : β → Reader ε γ) :
    (x >>= f >>= g) = (x >>= fun a => f a >>= g) := by
  funext bs
  rw [bind_apply, bind_apply, bind_apply]
  cases x bs <;> rfl

/-- Returning what was read is reading it. -/
theorem bind_pure_self (x : Reader ε α) : (x >>= pure) = x := by
  funext bs
  rw [bind_apply]
  cases x bs <;> rfl

/-- The inversion every proof about a successful read starts with. -/
theorem bind_eq_ok :
    (x >>= f) bs = .ok (b, rest) ↔ ∃ a mid, x bs = .ok (a, mid) ∧ f a mid = .ok (b, rest) := by
  rw [bind_apply]
  cases hx : x bs with
  | error e => simp
  | ok p => obtain ⟨a, mid⟩ := p; simp

theorem pure_eq_ok {b : α} : (pure a : Reader ε α) bs = .ok (b, rest) ↔ a = b ∧ bs = rest := by simp

/-- A reader that ends in what it makes of a value. -/
theorem bind_pure_eq_ok {g : α → β} :
    (x >>= fun a => pure (g a)) bs = .ok (b, rest) ↔ ∃ a, x bs = .ok (a, rest) ∧ g a = b := by
  simp only [bind_eq_ok, pure_eq_ok]
  constructor
  · rintro ⟨a, _, hx, rfl, rfl⟩
    exact ⟨a, hx, rfl⟩
  · rintro ⟨a, hx, rfl⟩
    exact ⟨a, rest, hx, rfl, rfl⟩

theorem take_eq_ok {a : Bytes} : take e n bs = .ok (a, rest) ↔ a.length = n ∧ bs = a ++ rest := by
  unfold take
  constructor
  · intro h
    split at h
    · injection h with h; injection h with ha hr; subst ha hr
      exact ⟨by simp; omega, (take_append_drop n bs).symm⟩
    · exact absurd h (by simp)
  · rintro ⟨rfl, rfl⟩
    simp

theorem take_error (h : bs.length < n) : take e n bs = .error e := if_neg (by omega)

theorem require_eq_ok {b : Bool} {u : Unit} :
    require e b bs = .ok (u, rest) ↔ b = true ∧ bs = rest := by
  unfold require
  cases b <;> simp

@[simp] theorem require_true (e : ε) : (require e true : Reader ε Unit) = pure () := rfl

@[simp] theorem require_false (e : ε) : (require e false : Reader ε Unit) = fail e := rfl

/-- Taking `m` bytes and then `n` is taking `m + n` at once. -/
theorem take_bind_take {m : Nat} {f : Bytes → Reader ε α} :
    (take e m >>= fun a => take e n >>= fun b => f (a ++ b)) = (take e (m + n) >>= f) := by
  funext bs
  rcases Nat.lt_or_ge bs.length (m + n) with hlt | hge
  · rw [bind_of_error (take_error hlt)]
    rcases Nat.lt_or_ge bs.length m with hm | hm
    · exact bind_of_error (take_error hm)
    · have hx : take e m bs = .ok (bs.take m, bs.drop m) := if_pos hm
      rw [bind_of_ok hx]
      exact bind_of_error (take_error (by simp; omega))
  · have hx : take e m bs = .ok (bs.take m, bs.drop m) := if_pos (by omega)
    have hy : take e n (bs.drop m) = .ok ((bs.drop m).take n, (bs.drop m).drop n) :=
      if_pos (by simp; omega)
    have hz : take e (m + n) bs = .ok (bs.take (m + n), bs.drop (m + n)) := if_pos hge
    rw [bind_of_ok hx, bind_of_ok hy, bind_of_ok hz, drop_drop, take_add]

/-! ## Exact consumption -/

/-- In front of any suffix, `x` consumes exactly `bs` and returns `a`. -/
def Reads (x : Reader ε α) (bs : Bytes) (a : α) : Prop := ∀ rest, x (bs ++ rest) = .ok (a, rest)

theorem reads_pure (a : α) : Reads (pure a : Reader ε α) [] a := fun _ => rfl

theorem Reads.bind {cs : Bytes}
    (hx : Reads x bs a) (hf : Reads (f a) cs b) : Reads (x >>= f) (bs ++ cs) b := by
  intro rest
  rw [append_assoc, bind_of_ok (hx (cs ++ rest))]
  exact hf rest

/-- A step that consumes nothing goes behind what precedes it. -/
theorem Reads.before (hx : Reads x bs a) (hf : Reads (f a) [] b) : Reads (x >>= f) bs b := by
  have h := hx.bind hf
  rwa [append_nil] at h

/-- A reader that ends by returning consumes what came before it. -/
theorem Reads.bind_pure {f : α → β} (hx : Reads x bs a) :
    Reads (x >>= fun a => pure (f a)) bs (f a) := hx.before (reads_pure (f a))

/-- A step that consumes nothing goes in front of what follows it. -/
theorem Reads.after {cs : Bytes}
    (hx : Reads x [] a) (hf : Reads (f a) cs b) : Reads (x >>= f) cs b := hx.bind hf

theorem reads_take (e : ε) (bs : Bytes) : Reads (take e bs.length) bs bs := by
  intro _
  rw [take_eq_ok]
  exact ⟨rfl, rfl⟩

theorem reads_take_of_length (e : ε) (h : bs.length = n) :
    Reads (take e n) bs bs := h ▸ reads_take e bs

/-- Looking at how much is left is harmless when the check passes on any suffix. -/
theorem reads_remaining_bind {f : Nat → Reader ε α}
    (h : ∀ n, bs.length ≤ n → Reads (f n) bs a) : Reads (remaining >>= f) bs a := by
  intro rest
  rw [bind_of_ok remaining_apply]
  exact h _ (by simp) rest

/-- A check on what is left that passes on any suffix. -/
theorem Reads.checked {e : Nat → ε} (hc : ∀ n, bs.length ≤ n → c n = true) (hx : Reads x bs a) :
    Reads (remaining >>= fun left => require (e left) (c left) >>= fun _ => x) bs a := by
  refine reads_remaining_bind ?_
  intro n hn
  rw [hc n hn]
  exact hx

theorem reads_lift {r : Except ε α} (h : r = .ok a) : Reads (lift r) [] a := by
  rw [h]
  exact reads_pure a

/-! ## Loops -/

/-- Run the readers in order and collect the results. -/
def runAll : List (Reader ε α) → Reader ε (List α)
  | [] => pure []
  | x :: xs => do
    let a ← x
    let as ← runAll xs
    pure (a :: as)

/-- Run the steps in order, each on the state the one before it left. -/
def thread {σ : Type} : List (σ → Reader ε σ) → σ → Reader ε σ
  | [], s => pure s
  | f :: fs, s => do
    let s ← f s
    thread fs s

/-- One slot: a flagged slot is `absent` and has no bytes. -/
def slot (absent : α) (x : Reader ε α) (flag : Bool) : Reader ε α :=
  if flag then pure absent else x

/-- Readers that each consume exactly their own piece consume the pieces in order. -/
theorem reads_runAll {ι : Type} {x : ι → Reader ε α} {bs : ι → Bytes} {a : ι → α} :
    ∀ {is : List ι}, (∀ i ∈ is, Reads (x i) (bs i) (a i)) →
    Reads (runAll (is.map x)) (is.flatMap bs) (is.map a)
  | [], _ => reads_pure []
  | i :: is, h => by
    have hi : Reads (x i) (bs i) (a i) := h i (by simp)
    have his : Reads (runAll (is.map x)) (is.flatMap bs) (is.map a) :=
      reads_runAll fun j hj => h j (by simp [hj])
    exact hi.bind his.bind_pure

theorem runAll_eq_ok {xs : List (Reader ε α)} : runAll (x :: xs) bs = .ok (as, rest) ↔
      ∃ a mid as', x bs = .ok (a, mid) ∧ runAll xs mid = .ok (as', rest) ∧ as = a :: as' := by
  rw [runAll, bind_eq_ok]
  constructor
  · rintro ⟨a, mid, ha, h⟩
    obtain ⟨as', has, rfl⟩ := bind_pure_eq_ok.mp h
    exact ⟨a, mid, as', ha, has, rfl⟩
  · rintro ⟨a, mid, as', ha, has, rfl⟩
    exact ⟨a, mid, ha, bind_eq_ok.mpr ⟨as', rest, has, rfl⟩⟩

/-! ## Postconditions -/

/-- Whatever `x` returns, from whatever input, satisfies `P`. -/
def Yields (x : Reader ε α) (P : α → Prop) : Prop :=
  ∀ bs a rest, x bs = .ok (a, rest) → P a

theorem yields_pure (h : P a) : Yields (pure a : Reader ε α) P := by
  intro _ b _ hb
  obtain ⟨rfl, -⟩ := pure_eq_ok.mp hb
  exact h

theorem yields_fail (e : ε) : Yields (fail e : Reader ε α) P := by
  intro _ a _ h
  cases h

theorem Yields.bind (hx : Yields x P) (hf : ∀ a, P a → Yields (f a) Q) : Yields (x >>= f) Q := by
  intro bs b rest h
  obtain ⟨a, mid, h1, h2⟩ := bind_eq_ok.mp h
  exact hf a (hx bs a mid h1) mid b rest h2

/-- A step whose result is checked or dropped, not returned. -/
theorem yields_after (hf : ∀ a, Yields (f a) Q) : Yields (x >>= f) Q :=
  Yields.bind (P := fun _ => True) (fun _ _ _ _ => trivial) fun a _ => hf a

theorem yields_take : Yields (take e n) fun bs => bs.length = n :=
  fun _ _ _ h => (take_eq_ok.mp h).1

theorem Yields.mono {Q : α → Prop} (hx : Yields x P) (h : ∀ a, P a → Q a) :
    Yields x Q := fun bs a rest ha => h a (hx bs a rest ha)

/-- The same postcondition at every position. -/
theorem yields_runAll_all {xs : List (Reader ε α)} (h : ∀ x ∈ xs, Yields x P) :
    Yields (runAll xs) fun as => as.length = xs.length ∧ ∀ a ∈ as, P a := by
  induction xs with
  | nil => exact yields_pure ⟨rfl, by simp⟩
  | cons x xs ih =>
    have hxs := ih fun y hy => h y (mem_cons_of_mem x hy)
    refine (h x mem_cons_self).bind fun a ha => hxs.bind fun as has => yields_pure ?_
    exact ⟨by simp [has.1], by simpa using ⟨ha, has.2⟩⟩

/-! ## Failures -/

/-- Whatever `x` fails with, on whatever input, satisfies `Q`. -/
def Fails (x : Reader ε α) (Q : ε → Prop) : Prop := ∀ bs e, x bs = .error e → Q e

theorem fails_pure {Q : ε → Prop} (a : α) : Fails (pure a : Reader ε α) Q := by
  intro _ e h
  cases h

theorem fails_take {Q : ε → Prop} (n : Nat) (he : Q e) : Fails (take e n) Q := by
  intro _ _ h
  unfold take at h
  split at h
  · cases h
  · cases h
    exact he

theorem Fails.bind {Q : ε → Prop} (hx : Fails x Q)
    (hf : ∀ a, Fails (f a) Q) : Fails (x >>= f) Q := by
  intro bs e h
  rw [bind_apply] at h
  cases hbs : x bs with
  | error _ =>
    rw [hbs] at h
    cases h
    exact hx bs e hbs
  | ok p =>
    rw [hbs] at h
    exact hf p.1 p.2 e h

/-! ## Readers that accept the same -/

variable {δ : Type} {y : Reader δ α} {g : α → Reader δ β}

/-- Whatever one reader accepts the other accepts too, with the same result and the same rest.
What they say on failure is not compared. -/
def Same (x : Reader ε α) (y : Reader δ α) : Prop := ∀ bs p, x bs = .ok p ↔ y bs = .ok p

theorem same_pure : Same (pure a : Reader ε α) (pure a : Reader δ α) := by
  intro _ p
  simp

theorem same_fail {d : δ} : Same (fail e : Reader ε α) (fail d : Reader δ α) := by
  intro _ p
  simp

theorem same_take {d : δ} : Same (take e n) (take d n) := by
  intro _ p
  obtain ⟨a, _⟩ := p
  rw [take_eq_ok, take_eq_ok]

theorem same_require {d : δ} {b : Bool} : Same (require e b) (require d b) := by
  intro _ p
  obtain ⟨u, _⟩ := p
  rw [require_eq_ok, require_eq_ok]

theorem same_remaining : Same (remaining : Reader ε Nat) (remaining : Reader δ Nat) := by
  intro _ p
  simp

/-- Only what the first part can return matters to the second. -/
theorem Same.bind_yields (hx : Same x y) (hP : Yields y P) (hf : ∀ a, P a → Same (f a) (g a)) :
    Same (x >>= f) (y >>= g) := by
  intro bs p
  obtain ⟨b, rest⟩ := p
  rw [bind_eq_ok, bind_eq_ok]
  constructor
  · rintro ⟨a, mid, ha, hb⟩
    have hy := (hx bs (a, mid)).mp ha
    exact ⟨a, mid, hy, (hf a (hP bs a mid hy) mid (b, rest)).mp hb⟩
  · rintro ⟨a, mid, hy, hb⟩
    exact ⟨a, mid, (hx bs (a, mid)).mpr hy, (hf a (hP bs a mid hy) mid (b, rest)).mpr hb⟩

theorem Same.bind (hx : Same x y) (hf : ∀ a, Same (f a) (g a)) : Same (x >>= f) (y >>= g) :=
  hx.bind_yields (P := fun _ => True) (fun _ _ _ _ => trivial) fun a _ => hf a

/-- A check that what follows makes anyway may be left out. -/
theorem Same.of_check (hx : Same x y) (hc : ∀ bs p, y bs = .ok p → c bs.length = true) :
    Same (remaining >>= fun left => require e (c left) >>= fun _ => x) y := by
  intro bs p
  rw [bind_of_ok remaining_apply]
  cases hpass : c bs.length with
  | true =>
    rw [require_true]
    exact hx bs p
  | false =>
    rw [require_false]
    refine iff_of_false (by intro h; cases h) fun h => ?_
    rw [hc bs p h] at hpass
    cases hpass

/-! ## Readers that check more -/

/-- One reader accepts what the other accepts, where the result satisfies `P`. -/
def Keeps (x : Reader ε α) (y : Reader δ α) (P : α → Prop) : Prop :=
  ∀ bs a rest, x bs = .ok (a, rest) ↔ y bs = .ok (a, rest) ∧ P a

theorem Same.keeps (h : Same x y) : Keeps x y fun _ => True := by
  intro bs a rest
  rw [h bs (a, rest), and_true]

/-- Only what can be returned has to be checked alike. -/
theorem Keeps.congr {Q : α → Prop} (h : Keeps x y P)
    (hPQ : Yields y fun a => P a ↔ Q a) : Keeps x y Q := by
  intro bs a rest
  rw [h bs a rest]
  exact and_congr_right (hPQ bs a rest)

/-- The checks of both parts are the check of the whole. -/
theorem Keeps.bind {Q : α → β → Prop} {R : β → Prop} (hx : Keeps x y P)
    (hf : ∀ a, Keeps (f a) (g a) (Q a)) (hR : ∀ a, Yields (g a) fun b => R b ↔ P a ∧ Q a b) :
    Keeps (x >>= f) (y >>= g) R := by
  intro bs b rest
  rw [bind_eq_ok, bind_eq_ok]
  constructor
  · rintro ⟨a, mid, ha, hb⟩
    obtain ⟨hy, hP⟩ := (hx bs a mid).mp ha
    obtain ⟨hg, hQ⟩ := (hf a mid b rest).mp hb
    exact ⟨⟨a, mid, hy, hg⟩, (hR a mid b rest hg).mpr ⟨hP, hQ⟩⟩
  · rintro ⟨⟨a, mid, hy, hg⟩, hRb⟩
    obtain ⟨hP, hQ⟩ := (hR a mid b rest hg).mp hRb
    exact ⟨a, mid, (hx bs a mid).mpr ⟨hy, hP⟩, (hf a mid b rest).mpr ⟨hg, hQ⟩⟩

/-- A first part that checks nothing leaves the check to the second. -/
theorem Same.bind_keeps {R : β → Prop} (hx : Same x y) (hf : ∀ a, Keeps (f a) (g a) R) :
    Keeps (x >>= f) (y >>= g) R :=
  hx.keeps.bind hf fun _ _ _ _ _ => (and_iff_right trivial).symm

/-- A result that is wrapped up carries its check along. -/
theorem Keeps.bind_pure {R : β → Prop} {f : α → β} (hx : Keeps x y P) (hR : ∀ a, R (f a) ↔ P a) :
    Keeps (x >>= fun a => pure (f a)) (y >>= fun a => pure (f a)) R := by
  refine hx.bind (fun a => same_pure.keeps) fun a => yields_pure ?_
  rw [hR a, and_true]

/-- Two results that are wrapped up together carry both checks along. -/
theorem Keeps.bind_pure₂ {γ : Type} {R : γ → Prop} {z : Reader ε β} {w : Reader δ β} {f : α → β → γ}
    (hx : Keeps x y P) (hz : Keeps z w Q) (hR : ∀ a b, R (f a b) ↔ P a ∧ Q b) :
    Keeps (x >>= fun a => z >>= fun b => pure (f a b))
      (y >>= fun a => w >>= fun b => pure (f a b)) R := by
  intro bs c rest
  rw [bind_eq_ok, bind_eq_ok]
  constructor
  · rintro ⟨a, mid, ha, h⟩
    obtain ⟨b, hb, rfl⟩ := bind_pure_eq_ok.mp h
    obtain ⟨hy, hP⟩ := (hx bs a mid).mp ha
    obtain ⟨hw, hQ⟩ := (hz mid b rest).mp hb
    exact ⟨⟨a, mid, hy, bind_pure_eq_ok.mpr ⟨b, hw, rfl⟩⟩, (hR a b).mpr ⟨hP, hQ⟩⟩
  · rintro ⟨⟨a, mid, hy, h⟩, hRc⟩
    obtain ⟨b, hw, rfl⟩ := bind_pure_eq_ok.mp h
    obtain ⟨hP, hQ⟩ := (hR a b).mp hRc
    exact ⟨a, mid, (hx bs a mid).mpr ⟨hy, hP⟩,
      bind_pure_eq_ok.mpr ⟨b, (hz mid b rest).mpr ⟨hw, hQ⟩, rfl⟩⟩

/-- A check that what follows makes anyway may be left out. -/
theorem Keeps.of_check
    (hx : Keeps x y P) (hc : ∀ bs a rest, y bs = .ok (a, rest) → c bs.length = true) :
    Keeps (remaining >>= fun left => require e (c left) >>= fun _ => x) y P := by
  intro bs a rest
  rw [bind_of_ok remaining_apply]
  cases hpass : c bs.length with
  | true =>
    rw [require_true]
    exact hx bs a rest
  | false =>
    rw [require_false]
    refine iff_of_false (by intro h; cases h) fun h => ?_
    rw [hc bs a rest h.1] at hpass
    cases hpass

/-- The same check at every position of a run. -/
theorem keeps_runAll {ι : Type} {x : ι → Reader ε α} {y : ι → Reader δ α} :
    ∀ {is : List ι}, (∀ i ∈ is, Keeps (x i) (y i) P) →
    Keeps (runAll (is.map x)) (runAll (is.map y)) fun as => ∀ a ∈ as, P a
  | [], _ => same_pure.keeps.congr (yields_pure (by simp))
  | i :: is, h => by
    have hi : Keeps (x i) (y i) P := h i (by simp)
    have his := keeps_runAll fun j hj => h j (mem_cons_of_mem i hj)
    refine hi.bind (fun a => his.bind_pure (R := fun as => ∀ b ∈ as.tail, P b) fun as => Iff.rfl)
      fun a => ?_
    exact yields_after fun as => yields_pure (by simp)

/-- One reader after all the others. -/
theorem runAll_concat_eq_ok : ∀ {xs : List (Reader ε α)} {bs mid rest : Bytes}
    {as : List α} {a : α}, runAll xs bs = .ok (as, mid) → x mid = .ok (a, rest) →
    runAll (xs ++ [x]) bs = .ok (as ++ [a], rest)
  | [], bs, mid, rest, as, a, hxs, hx => by
    obtain ⟨rfl, rfl⟩ := pure_eq_ok.mp hxs
    exact runAll_eq_ok.mpr ⟨a, rest, [], hx, rfl, rfl⟩
  | y :: xs, bs, mid, rest, as, a, hxs, hx => by
    obtain ⟨b, next', as', hy, htail, rfl⟩ := runAll_eq_ok.mp hxs
    exact runAll_eq_ok.mpr ⟨b, next', as' ++ [a], hy, runAll_concat_eq_ok htail hx, rfl⟩

/-! ## Reading in front of more bytes -/

/-- What is read off a buffer is read the same way off a longer one, with the rest longer. -/
def Extends (x : Reader ε α) : Prop :=
  ∀ (bs rest : Bytes) (a : α) (more : Bytes), x bs = .ok (a, rest) →
    x (bs ++ more) = .ok (a, rest ++ more)

theorem extends_pure (a : α) : Extends (pure a : Reader ε α) := by
  intro _ _ b _ h
  obtain ⟨rfl, rfl⟩ := pure_eq_ok.mp h
  rfl

theorem extends_fail (e : ε) : Extends (fail e : Reader ε α) := by
  intro _ _ a _ h
  cases h

theorem extends_take (e : ε) (n : Nat) : Extends (take e n) := by
  intro _ rest a more h
  obtain ⟨hlen, rfl⟩ := take_eq_ok.mp h
  exact take_eq_ok.mpr ⟨hlen, append_assoc a rest more⟩

theorem extends_lift (r : Except ε α) : Extends (lift r) := by
  cases r with
  | ok a => exact extends_pure a
  | error e => exact extends_fail e

theorem Extends.bind (hx : Extends x) (hf : ∀ a, Extends (f a)) : Extends (x >>= f) := by
  intro _ _ b more h
  obtain ⟨a, _, hmid, hrest⟩ := bind_eq_ok.mp h
  rw [bind_of_ok (hx _ _ _ more hmid)]
  exact hf a _ _ _ more hrest

/-- A check on what is left, of the kind that more bytes only make pass. -/
theorem Extends.of_check (hx : Extends x) (hc : ∀ m n, m ≤ n → c m = true → c n = true) :
    Extends (remaining >>= fun left => require e (c left) >>= fun _ => x) := by
  intro bs _ a more h
  rw [bind_of_ok remaining_apply] at h
  obtain ⟨u, _, hmid, hrest⟩ := bind_eq_ok.mp h
  obtain ⟨hpass, rfl⟩ := require_eq_ok.mp hmid
  have hlon : c (bs ++ more).length = true := hc _ _ (by simp) hpass
  rw [bind_of_ok remaining_apply, hlon]
  exact hx _ _ _ more hrest

theorem extends_runAll : ∀ {xs : List (Reader ε α)}, (∀ x ∈ xs, Extends x) → Extends (runAll xs)
  | [], _ => extends_pure []
  | x :: _, h =>
    (h x mem_cons_self).bind fun a =>
      (extends_runAll fun y hy => h y (mem_cons_of_mem _ hy)).bind fun as =>
        extends_pure (a :: as)

theorem extends_slot (absent : α) (flag : Bool) (h : Extends x) : Extends (slot absent x flag) := by
  cases flag with
  | true => exact extends_pure absent
  | false => exact h

/-! ## Readers that go along with another -/

/-- `x` reads what `y` reads, with results related by `R`; where `x` fails, `y` fails too,
but for the failures in `C`. -/
structure Tracks (x : Reader ε α) (y : Reader δ β) (R : α → β → Prop) (C : ε → Prop) : Prop where
  ok : ∀ {bs rest : Bytes} {a : α}, x bs = .ok (a, rest) → ∃ b, y bs = .ok (b, rest) ∧ R a b
  error : ∀ {bs : Bytes} {e : ε}, x bs = .error e → C e ∨ ∀ p, y bs ≠ .ok p

section Tracks

variable {R : α → β → Prop} {C : ε → Prop}

theorem tracks_pure (h : R a b) : Tracks (pure a : Reader ε α) (pure b : Reader δ β) R C := by
  refine ⟨?_, ?_⟩
  · intro bs _ _ ha
    obtain ⟨rfl, rfl⟩ := pure_eq_ok.mp ha
    exact ⟨b, rfl, h⟩
  · intro bs e he
    cases he

theorem tracks_take {d : δ} :
    Tracks (take e n) (take d n) (fun a b => a = b ∧ a.length = n) C := by
  refine ⟨?_, ?_⟩
  · intro bs rest a ha
    exact ⟨a, (same_take bs (a, rest)).mp ha, rfl, (take_eq_ok.mp ha).1⟩
  · intro bs _ he
    right
    intro p hp
    rw [(same_take bs p).mpr hp] at he
    cases he

/-- Where `y` cannot succeed, `x` may fail as it likes. -/
theorem tracks_fail (e : ε) (d : δ) : Tracks (fail e : Reader ε α) (fail d : Reader δ β) R C := by
  refine ⟨?_, ?_⟩
  · intro bs _ a ha
    cases ha
  · intro bs _ _
    right
    intro p hp
    cases hp

theorem Tracks.mono {y : Reader δ β} {S : α → β → Prop} (h : Tracks x y R C)
    (hRS : ∀ a b, R a b → S a b) : Tracks x y S C := by
  refine ⟨?_, h.error⟩
  intro _ _ a ha
  obtain ⟨b, hb, hab⟩ := h.ok ha
  exact ⟨b, hb, hRS a b hab⟩

theorem Tracks.bind {γ η : Type} {S : γ → η → Prop} {y : Reader δ β}
    {f : α → Reader ε γ} {g : β → Reader δ η} (hx : Tracks x y R C)
    (hf : ∀ a b, R a b → Tracks (f a) (g b) S C) : Tracks (x >>= f) (y >>= g) S C := by
  refine ⟨?_, ?_⟩
  · intro bs _ c hc
    obtain ⟨a, mid, ha, hc⟩ := bind_eq_ok.mp hc
    obtain ⟨b, hb, hab⟩ := hx.ok ha
    obtain ⟨d, hd, hcd⟩ := (hf a b hab).ok hc
    exact ⟨d, bind_eq_ok.mpr ⟨b, mid, hb, hd⟩, hcd⟩
  · intro bs e he
    cases hxb : x bs with
    | error _ =>
      rw [bind_of_error hxb] at he
      cases he
      rcases hx.error hxb with hC | hy
      · exact .inl hC
      · right
        intro p hp
        obtain ⟨b, mid, hb, -⟩ := bind_eq_ok.mp hp
        exact hy (b, mid) hb
    | ok q =>
      obtain ⟨a, mid⟩ := q
      rw [bind_of_ok hxb] at he
      obtain ⟨b, hb, hab⟩ := hx.ok hxb
      rcases (hf a b hab).error he with hC | hg
      · exact .inl hC
      · right
        intro p hp
        rw [bind_of_ok hb] at hp
        exact hg p hp

/-- A step of `x` alone, which reads nothing. -/
theorem tracks_lift_bind {γ : Type} {S : γ → β → Prop} {r : Except ε α} {f : α → Reader ε γ}
    {y : Reader δ β} (hok : ∀ a, r = .ok a → Tracks (f a) y S C) (herr : ∀ e, r = .error e → C e) :
    Tracks (lift r >>= f) y S C := by
  cases r with
  | ok a => exact hok a rfl
  | error e =>
    refine ⟨?_, ?_⟩
    · intro bs _ c hc
      cases hc
    · intro bs _ he
      cases he
      exact .inl (herr e rfl)

/-- A result that only `x` computes on. -/
theorem tracks_lift {r : Except ε α} (hok : ∀ a, r = .ok a → R a b)
    (herr : ∀ e, r = .error e → C e) : Tracks (lift r) (pure b : Reader δ β) R C := by
  cases r with
  | ok a => exact tracks_pure (hok a rfl)
  | error e =>
    refine ⟨?_, ?_⟩
    · intro bs _ c hc
      cases hc
    · intro bs _ he
      cases he
      exact .inl (herr e rfl)

/-- A check that `y` passes whenever it succeeds. -/
theorem Tracks.of_check {y : Reader δ β}
    (hx : Tracks x y R C) (hc : ∀ bs p, y bs = .ok p → c bs.length = true) :
    Tracks (remaining >>= fun left => require e (c left) >>= fun _ => x) y R C := by
  refine ⟨?_, ?_⟩
  · intro bs _ a ha
    rw [bind_of_ok remaining_apply] at ha
    obtain ⟨u, _, hmid, ha⟩ := bind_eq_ok.mp ha
    obtain ⟨-, rfl⟩ := require_eq_ok.mp hmid
    exact hx.ok ha
  · intro bs _ he
    rw [bind_of_ok remaining_apply] at he
    cases hpass : c bs.length with
    | true =>
      rw [hpass, require_true] at he
      exact hx.error he
    | false =>
      right
      intro p hp
      rw [hc bs p hp] at hpass
      cases hpass

/-- The same check on both sides. -/
theorem Tracks.require_both {e : Nat → ε} {d : Nat → δ} {y : Reader δ β} (hx : Tracks x y R C) :
    Tracks (remaining >>= fun left => require (e left) (c left) >>= fun _ => x)
      (remaining >>= fun left => require (d left) (c left) >>= fun _ => y) R C := by
  refine ⟨?_, ?_⟩
  · intro bs _ a ha
    rw [bind_of_ok remaining_apply] at ha ⊢
    cases hpass : c bs.length with
    | true =>
      rw [hpass, require_true] at ha
      rw [require_true]
      exact hx.ok ha
    | false =>
      rw [hpass, require_false] at ha
      cases ha
  · intro bs _ he
    rw [bind_of_ok remaining_apply] at he ⊢
    cases hpass : c bs.length with
    | true =>
      rw [hpass, require_true] at he
      rw [require_true]
      exact hx.error he
    | false =>
      right
      intro p hp
      rw [require_false] at hp
      cases hp

/-- What `y` is known to return may be used. -/
theorem Tracks.and_yields {y : Reader δ β} (h : Tracks x y R C)
    (hQ : Yields y Q) : Tracks x y (fun a b => R a b ∧ Q b) C := by
  refine ⟨?_, h.error⟩
  intro bs rest a ha
  obtain ⟨b, hb, hab⟩ := h.ok ha
  exact ⟨b, hb, hab, hQ bs b rest hb⟩

/-- Going along with a reader is going along with any that accepts the same. -/
theorem Tracks.of_same {ζ : Type} {y : Reader δ β} {z : Reader ζ β}
    (h : Tracks x y R C) (hyz : Same y z) : Tracks x z R C := by
  refine ⟨?_, ?_⟩
  · intro bs rest a ha
    obtain ⟨b, hb, hab⟩ := h.ok ha
    exact ⟨b, (hyz bs (b, rest)).mp hb, hab⟩
  · intro bs e he
    rcases h.error he with hC | hy
    · exact .inl hC
    · right
      intro p hp
      exact hy p ((hyz bs p).mpr hp)

/-- A loop over a state goes along with a loop that collects, where each step does. -/
theorem tracks_thread {ι σ : Type} {f : ι → σ → Reader ε σ} {y : ι → Reader δ β}
    {step : β → σ → Except ε σ} {Q : ι → β → Prop}
    (h : ∀ i s, Tracks (f i s) (y i) (fun s' b => step b s = .ok s' ∧ Q i b) C) (is : List ι) :
    ∀ s, Tracks (thread (is.map f) s) (runAll (is.map y))
      (fun s' bs => bs.foldlM (fun s b => step b s) s = .ok s' ∧ Forall₂ Q is bs) C := by
  induction is with
  | nil =>
    intro s
    exact tracks_pure ⟨rfl, .nil⟩
  | cons i is ih =>
    intro s
    refine (h i s).bind ?_
    intro s' b hb
    -- the rest of the loop, with the result that was read put in front
    have hrest : Tracks (thread (is.map f) s' >>= pure)
        (runAll (is.map y) >>= fun bs => pure (b :: bs)) (fun s'' bs =>
          bs.foldlM (fun s b => step b s) s = .ok s'' ∧ Forall₂ Q (i :: is) bs) C := by
      refine (ih s').bind ?_
      intro s'' bs hbs
      refine tracks_pure ⟨?_, .cons hb.2 hbs.2⟩
      rw [foldlM_cons, hb.1]
      exact hbs.1
    rw [bind_pure_self] at hrest
    exact hrest

end Tracks

end Reader

end Lib
