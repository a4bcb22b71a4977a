import Fletcher.Lib.Bytes
import Mathlib.Data.List.Basic

/-!
# Well-formed UTF-8

A byte string is read one byte at a time, keeping what the character begun last
still owes: how many bytes, and the range the next one must fall in. Overlong forms,
surrogates and code points past U+10FFFF are ruled out by the range of the second
byte. A string is valid when every byte is accepted and nothing is owed at its end.

Validity is kept by concatenation.
-/

namespace Lib

open List

variable {b : UInt8} {bs : Bytes} {p : Pending}

namespace Utf8

/-- What is owed before the next character can start. -/
structure Pending where
  owed : Nat
  low : Nat
  high : Nat
  deriving DecidableEq, Repr

/-- Between two characters. -/
def between : Pending := ⟨0, 0x80, 0xBF⟩

/-- The first byte of a character. -/
def lead (b : UInt8) : Option Pending :=
  let n := b.toNat
  if n < 0x80 then some between
  else if n < 0xC2 then none
  else if n < 0xE0 then some ⟨1, 0x80, 0xBF⟩
  else if n = 0xE0 then some ⟨2, 0xA0, 0xBF⟩
  else if n = 0xED then some ⟨2, 0x80, 0x9F⟩
  else if n < 0xF0 then some ⟨2, 0x80, 0xBF⟩
  else if n = 0xF0 then some ⟨3, 0x90, 0xBF⟩
  else if n < 0xF4 then some ⟨3, 0x80, 0xBF⟩
  else if n = 0xF4 then some ⟨3, 0x80, 0x8F⟩
  else none

def next (p : Pending) (b : UInt8) : Option Pending :=
  if p.owed = 0 then lead b
  else if p.low ≤ b.toNat ∧ b.toNat ≤ p.high then some ⟨p.owed - 1, 0x80, 0xBF⟩
  else none

def scan : Pending → Bytes → Option Pending
  | p, [] => some p
  | p, b :: bs =>
    match next p b with
    | some q => scan q bs
    | none => none

def valid (bs : Bytes) : Bool := scan between bs = some between

theorem valid_iff : valid bs = true ↔ scan between bs = some between := by
  simp [valid]

theorem scan_append : ∀ (as : Bytes) {bs : Bytes} {p q : Pending}, scan p as = some q →
    scan p (as ++ bs) = scan q bs
  | [], _, p, q, h => by
    obtain rfl : p = q := Option.some.inj h
    rfl
  | a :: as, bs, p, q, h => by
    rw [scan] at h
    rw [cons_append, scan]
    cases hn : next p a with
    | none =>
      rw [hn] at h
      cases h
    | some r =>
      rw [hn] at h
      exact scan_append as h

/-- After a valid string, validity is up to the rest. -/
theorem valid_append_iff {as : Bytes} (ha : valid as = true) :
    valid (as ++ bs) = true ↔ valid bs = true := by
  rw [valid_iff, scan_append as (valid_iff.mp ha), valid_iff]

theorem valid_append {as : Bytes} (ha : valid as = true) (hb : valid bs = true) :
    valid (as ++ bs) = true :=
  (valid_append_iff ha).mpr hb

theorem next_ascii (h : b.toNat < 0x80) : next between b = some between := by
  simp [next, between, lead, h]

theorem valid_ascii : ∀ {bs : Bytes}, (∀ b ∈ bs, b.toNat < 0x80) → valid bs = true
  | [], _ => rfl
  | b :: bs, h => by
    have htail := valid_ascii fun c hc => h c (mem_cons_of_mem b hc)
    rw [valid_iff] at htail ⊢
    rw [scan, next_ascii (h b mem_cons_self)]
    exact htail

/-! ## Texts a program builds -/

/-- The bytes of an ASCII literal. -/
def ascii (s : String) : Bytes := s.toList.map fun c => UInt8.ofNat c.toNat

/-- A number written in a base up to 16. -/
def numeral (base n : Nat) : Bytes := (Nat.toDigits base n).map fun c => UInt8.ofNat c.toNat

def decimal (n : Nat) : Bytes := numeral 10 n

def hexadecimal (n : Nat) : Bytes := numeral 16 n

theorem digitChar_lt (n : Nat) : n.digitChar.toNat < 0x80 := by
  by_cases h : n < 16
  · have hall : ∀ m < 16, (Nat.digitChar m).toNat < 0x80 := by decide
    exact hall n h
  · rw [Nat.digitChar_eq_star.mpr (by omega)]
    decide

theorem toDigitsCore_lt {base : Nat} : ∀ (fuel : Nat) {n : Nat} {ds : List Char},
    (∀ c ∈ ds, c.toNat < 0x80) → ∀ c ∈ Nat.toDigitsCore base fuel n ds, c.toNat < 0x80
  | 0, _, _, h => h
  | fuel + 1, n, ds, h => by
    have hcons : ∀ c ∈ (n % base).digitChar :: ds, c.toNat < 0x80 := by
      intro c hc
      rcases mem_cons.mp hc with rfl | hc
      · exact digitChar_lt _
      · exact h c hc
    rw [Nat.toDigitsCore]
    split
    · exact hcons
    · exact toDigitsCore_lt fuel hcons

theorem valid_numeral (base n : Nat) : valid (numeral base n) = true := by
  refine valid_ascii fun b hb => ?_
  obtain ⟨c, hc, rfl⟩ := mem_map.mp hb
  have hlt := toDigitsCore_lt (n + 1) (by simp) c hc
  rw [UInt8.toNat_ofNat']
  omega

end Utf8

end Lib
