import Fletcher.Core.PositionalReader

/-!
# The window a buffer writes into

`WriteBuffer` without its subclass is bytes and nothing else. Here it has the capacity the
subclass gives it: a `FixedWriteBuffer` throws when an append does not fit what is left, a
`VectorWriteBuffer` grows. That a window is never written beyond its end is a field.

Refusing is all or nothing in the end: whether a sequence of appends goes through depends on
the sum of their lengths (`append_append`), so every writer here has one equation saying
which bytes it appends.
-/

namespace Fletcher.Core

open Lib List

variable {w w' : Window} {data : Bytes}

/-- `{data, capacity, pos}`; no capacity for a buffer that grows. -/
structure Window where
  capacity : Option Nat
  bytes : Bytes
  inside : ∀ c ∈ capacity, bytes.length ≤ c

namespace Window

/-- A `VectorWriteBuffer` with nothing in it. -/
def growable : Window := ⟨none, [], fun _ h => nomatch h⟩

def position (w : Window) : Nat := w.bytes.length

/-- Whether `n` more bytes go in. -/
def HasRoom (w : Window) (n : Nat) : Prop := ∀ c ∈ w.capacity, n ≤ c - w.position

instance (w : Window) (n : Nat) : Decidable (w.HasRoom n) :=
  inferInstanceAs (Decidable (∀ c ∈ w.capacity, n ≤ c - w.position))

def append (w : Window) (data : Bytes) : Except Error Window :=
  if h : w.HasRoom data.length then
    .ok ⟨w.capacity, w.bytes ++ data, by
      intro c hc
      have hroom := h c hc
      have hinside := w.inside c hc
      rw [List.length_append]
      unfold position at hroom
      omega⟩
  else .error (.overflowError "FixedWriteBuffer: overflow")

def appendU32 (w : Window) (n : Nat) : Except Error Window := w.append (leBytes 4 n)

/-- `PatchU32`. -/
def patchU32 (w : Window) (offset value : Nat) : Except Error Window :=
  if h : w.position < 4 ∨ w.position - 4 < offset then
    .error (.outOfRange "WriteBuffer::PatchU32: offset out of range")
  else
    .ok ⟨w.capacity, w.bytes.take offset ++ leBytes 4 value ++ w.bytes.drop (offset + 4), by
      intro c hc
      have hinside := w.inside c hc
      simp only [List.length_append, List.length_take, List.length_drop, leBytes_length]
      unfold position at h
      omega⟩

/-- `WriteLengthPlaceholder`: the offset to patch later. -/
def writeLengthPlaceholder (w : Window) : Except Error (Nat × Window) := do
  let w' ← w.appendU32 0
  pure (w.position, w')

/-- `PositionalWriter::WriteString`: of the string, as many bytes as its narrowed length says. -/
def writeString (w : Window) (s : Bytes) : Except Error Window := do
  let len := s.length % 2 ^ 32
  let w ← w.appendU32 len
  w.append (s.take len)

/-- `PositionalWriter::WriteBinary`: the length is narrowed, the data is not. -/
def writeBinary (w : Window) (data : Bytes) : Except Error Window := do
  let w ← w.appendU32 (data.length % 2 ^ 32)
  w.append data

/-! ## Appending -/

theorem eq_of_fields (hc : w.capacity = w'.capacity) (hb : w.bytes = w'.bytes) :
    w = w' := by
  cases w
  cases w'
  cases hc
  cases hb
  rfl

theorem append_eq_ok : w.append data = .ok w' ↔
    w.HasRoom data.length ∧ w'.capacity = w.capacity ∧ w'.bytes = w.bytes ++ data := by
  unfold append
  constructor
  · intro h
    split at h
    · next hroom =>
      cases h
      exact ⟨hroom, rfl, rfl⟩
    · cases h
  · rintro ⟨hroom, hc, hb⟩
    rw [dif_pos hroom]
    exact congrArg Except.ok (eq_of_fields hc.symm hb.symm)

theorem append_of_hasRoom (h : w.HasRoom data.length) :
    ∃ w', w.append data = .ok w' ∧ w'.capacity = w.capacity ∧ w'.bytes = w.bytes ++ data :=
  ⟨_, dif_pos h, rfl, rfl⟩

theorem append_nil (w : Window) : w.append [] = .ok w :=
  append_eq_ok.mpr ⟨fun _ _ => Nat.zero_le _, rfl, (List.append_nil _).symm⟩

theorem append_of_full (h : ¬ w.HasRoom data.length) :
    w.append data = .error (.overflowError "FixedWriteBuffer: overflow") := dif_neg h

/-- Room for two appends is room for the first and then for the second. -/
theorem hasRoom_add {m n : Nat} (hc : w'.capacity = w.capacity)
    (hp : w'.position = w.position + m) (hm : w.HasRoom m) :
    w.HasRoom (m + n) ↔ w'.HasRoom n := by
  constructor
  · intro h c hcap
    have hroom := h c (hc ▸ hcap)
    omega
  · intro h c hcap
    have hfst := hm c hcap
    have hroom := h c (hc.symm ▸ hcap)
    omega

theorem HasRoom.mono {m n : Nat} (h : w.HasRoom n) (hle : m ≤ n) : w.HasRoom m :=
  fun c hc => Nat.le_trans hle (h c hc)

/-- **Two appends are one.** -/
theorem append_append (w : Window) (a b : Bytes) :
    (w.append a >>= fun w => w.append b) = w.append (a ++ b) := by
  by_cases ha : w.HasRoom a.length
  · obtain ⟨mid, hmid, hc, hby⟩ := append_of_hasRoom ha
    have hpos : mid.position = w.position + a.length := by
      rw [position, hby, length_append, position]
    have hboth : w.HasRoom (a ++ b).length ↔ mid.HasRoom b.length := by
      rw [length_append]
      exact hasRoom_add hc hpos ha
    rw [hmid, ok_bind]
    by_cases hb : mid.HasRoom b.length
    · obtain ⟨_, hw', hc', hby'⟩ := append_of_hasRoom hb
      refine hw'.trans (append_eq_ok.mpr ⟨hboth.mpr hb, hc'.trans hc, ?_⟩).symm
      rw [hby', hby, append_assoc]
    · rw [append_of_full hb, append_of_full (mt hboth.mp hb)]
  · have hboth : ¬ w.HasRoom (a ++ b).length := by
      refine mt (fun h => h.mono ?_) ha
      rw [length_append]
      exact Nat.le_add_right _ _
    rw [append_of_full ha, append_of_full hboth]
    rfl

theorem leBytes_four_mod (n : Nat) : leBytes 4 (n % 2 ^ 32) = leBytes 4 n := by
  have hmod : ofLe (leBytes 4 (n % 2 ^ 32)) = ofLe (leBytes 4 n) := by
    rw [ofLe_leBytes_mod, ofLe_leBytes_mod]
    exact Nat.mod_mod n (2 ^ 32)
  have hback := leBytes_ofLe (leBytes 4 (n % 2 ^ 32))
  rw [hmod, leBytes_length] at hback
  have hback' := leBytes_ofLe (leBytes 4 n)
  rw [leBytes_length] at hback'
  exact hback.symm.trans hback'

theorem writeString_eq (w : Window) (s : Bytes) :
    w.writeString s = w.append (leBytes 4 s.length ++ s.take (s.length % 2 ^ 32)) := by
  rw [← append_append, ← leBytes_four_mod]
  rfl

theorem writeBinary_eq (w : Window) (data : Bytes) :
    w.writeBinary data = w.append (leBytes 4 data.length ++ data) := by
  rw [← append_append, ← leBytes_four_mod]
  rfl

/-! ## Recovering what was written -/

/-- What a writer did to the window is a refusal, or bytes the reader makes `good` sense of. -/
def Recovers (w : Window) (written : Except Error Window) (good : Bytes → Prop) : Prop :=
  ∀ w', written = .ok w' → ∃ bs, w'.bytes = w.bytes ++ bs ∧ good bs

/-- Of one append: where there is room for it, its bytes have to be good. -/
theorem recovers_append {good : Bytes → Prop} :
    w.Recovers (w.append data) good ↔ (w.HasRoom data.length → good data) := by
  constructor
  · intro h hroom
    obtain ⟨w', hw', -, hby⟩ := append_of_hasRoom hroom
    obtain ⟨_, hbs, _⟩ := h w' hw'
    rw [hby] at hbs
    rwa [append_cancel_left hbs]
  · intro h w' hw'
    obtain ⟨hroom, -, hby⟩ := append_eq_ok.mp hw'
    exact ⟨data, hby, h hroom⟩

end Window

open PositionalReader

theorem PositionalReader.yields_readString :
    Reader.Yields readString fun bs => bs.length < 2 ^ 32 :=
  yields_readUint32.bind fun _ hlen => Reader.yields_take.mono fun _ hbs => hbs ▸ hlen

theorem Window.recovers_writeString (w : Window) (s : Bytes) :
    w.Recovers (w.writeString s) (fun bs => Reader.Reads readString bs s) ↔
      (w.HasRoom (4 + s.length % 2 ^ 32) → s.length < 2 ^ 32) := by
  have hlen : (leBytes 4 s.length ++ s.take (s.length % 2 ^ 32)).length =
      4 + s.length % 2 ^ 32 := by
    rw [length_append, leBytes_length, length_take,
      Nat.min_eq_left (Nat.mod_le s.length (2 ^ 32))]
  rw [writeString_eq, recovers_append, hlen]
  refine imp_congr_right fun _ => ⟨fun h => ?_, fun h => ?_⟩
  · exact yields_readString _ s [] (h [])
  · rw [Nat.mod_eq_of_lt h, take_length]
    exact reads_readString h

theorem Window.recovers_writeBinary (w : Window) (data : Bytes) :
    w.Recovers (w.writeBinary data) (fun bs => Reader.Reads readString bs data) ↔
      (w.HasRoom (4 + data.length) → data.length < 2 ^ 32) := by
  rw [writeBinary_eq, recovers_append, length_append, leBytes_length]
  refine imp_congr_right fun _ => ⟨fun h => ?_, reads_readString⟩
  exact yields_readString _ data [] (h [])

end Fletcher.Core
