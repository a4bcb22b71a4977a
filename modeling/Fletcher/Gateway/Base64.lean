import Fletcher.Gateway.Session

/-!
# Base64

The schema of a `subscribed` reply travels as base64 text. `base64Decode` is the decoder a client
has: groups of four characters of the alphabet, the last one padded, and no bit set that the
padding cuts off.
-/

namespace Fletcher.Gateway

open Lib Fletcher.Core

/-- Where the character stands in the alphabet. -/
def base64Value (c : UInt8) : Option Nat := base64Alphabet.idxOf? c

def base64Decode : Bytes → Option Bytes
  | [] => some []
  | a :: b :: c :: d :: rest => do
    let x ← base64Value a
    let y ← base64Value b
    let first := UInt8.ofNat (x * 4 + y / 16)
    if d = 61 ∧ rest = [] then
      if c = 61 then
        if y % 16 = 0 then some [first] else none
      else do
        let z ← base64Value c
        if z % 4 = 0 then some [first, UInt8.ofNat (y * 16 + z / 4)] else none
    else do
      let z ← base64Value c
      let u ← base64Value d
      let bytes ← base64Decode rest
      some (first :: UInt8.ofNat (y * 16 + z / 4) :: UInt8.ofNat (z * 64 + u) :: bytes)
  | _ => none

theorem base64Char_cases (n : Nat) : base64Value (base64Char n) = some (n % 64) ∧
    base64Char n ≠ 61 ∧ (base64Char n).toNat < 0x80 := by
  have hall : ∀ k < 64, base64Value (base64Alphabet.getD k 0) = some k ∧
      base64Alphabet.getD k 0 ≠ 61 ∧ (base64Alphabet.getD k 0).toNat < 0x80 := by decide +kernel
  exact hall (n % 64) (Nat.mod_lt n (by decide))

/-- Three bytes side by side, as a number. -/
theorem group_eq {a b c : Nat} (hb : b < 2 ^ 8) (hc : c < 2 ^ 8) :
    a <<< 16 ||| b <<< 8 ||| c = a * 65536 + b * 256 + c := by
  rw [Nat.or_assoc, ← Nat.shiftLeft_add_eq_or_of_lt hc, ← Nat.shiftLeft_add_eq_or_of_lt (by
    rw [Nat.shiftLeft_eq]
    omega), Nat.shiftLeft_eq, Nat.shiftLeft_eq]
  omega

theorem ofNat_eq {n : Nat} {a : UInt8} (h : n % 256 = a.toNat) : UInt8.ofNat n = a :=
  UInt8.toNat_inj.mp (by rw [UInt8.toNat_ofNat', ← h])

/-- **Base64** text has four characters for every group of three bytes that was begun, and the
decoder gives the bytes back. -/
theorem base64Decode_base64Encode (data : Bytes) :
    base64Decode (base64Encode data) = some data ∧
      (base64Encode data).length = 4 * ((data.length + 2) / 3) := by
  have hval := fun n => (base64Char_cases n).1
  have hpad := fun n => (base64Char_cases n).2.1
  fun_induction base64Encode data with
  | case1 => exact ⟨rfl, rfl⟩
  | case2 a b =>
    have ha := a.toNat_lt
    have hb : b = a.toNat * 65536 := Nat.shiftLeft_eq ..
    rw [base64Decode, hval, hval, hb, Nat.shiftRight_eq_div_pow, Nat.shiftRight_eq_div_pow]
    simp only [Option.bind_eq_bind, Option.bind_some, and_self, if_true]
    rw [if_pos (by omega), ofNat_eq (a := a) (by omega)]
    exact ⟨rfl, by simp⟩
  | case3 a a' b =>
    have ha := a.toNat_lt
    have ha' := a'.toNat_lt
    have hb : b = a.toNat * 65536 + a'.toNat * 256 := by
      have hgrp := group_eq (a := a.toNat) (c := 0) ha' (by decide)
      rwa [Nat.or_zero, Nat.add_zero] at hgrp
    rw [base64Decode, hval, hval, hval, hb, Nat.shiftRight_eq_div_pow, Nat.shiftRight_eq_div_pow,
      Nat.shiftRight_eq_div_pow]
    simp only [Option.bind_eq_bind, Option.bind_some, and_self, if_true, hpad, if_false]
    rw [if_pos (by omega), ofNat_eq (a := a) (by omega), ofNat_eq (a := a') (by omega)]
    exact ⟨rfl, by simp⟩
  | case4 a a' a'' rest b ih =>
    have ha := a.toNat_lt
    have ha' := a'.toNat_lt
    have ha'' := a''.toNat_lt
    have hb : b = a.toNat * 65536 + a'.toNat * 256 + a''.toNat := group_eq ha' ha''
    rw [base64Decode, hval, hval, hval, hval, hb, Nat.shiftRight_eq_div_pow,
      Nat.shiftRight_eq_div_pow, Nat.shiftRight_eq_div_pow]
    simp only [Option.bind_eq_bind, Option.bind_some, hpad, false_and, if_false, ih.1]
    rw [ofNat_eq (a := a) (by omega), ofNat_eq (a := a') (by omega),
      ofNat_eq (a := a'') (by omega)]
    refine ⟨rfl, ?_⟩
    simp only [List.length_cons, ih.2]
    omega

end Fletcher.Gateway
