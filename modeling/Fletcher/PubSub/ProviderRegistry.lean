import Fletcher.Lib.Lists
import Fletcher.Lib.Utf8

/-!
# Selectors in the registry's messages

A refusal names the selector it is about in quotes, with everything escaped that a reader could
not see. Two selectors never look alike in it.
-/

namespace Fletcher.PubSub.Registry

open Lib Utf8

/-- `kHex[n]`. -/
def hexDigit (n : Nat) : UInt8 := (ascii "0123456789abcdef").getD n 0

/-- One byte of the text. -/
def quotedByte (c : UInt8) : Bytes :=
  if c = 92 ∨ c = 34 then [92, c]
  else if 0x20 ≤ c ∧ c < 0x7f then [c]
  else [92, 120, hexDigit (c.toNat >>> 4), hexDigit (c.toNat &&& 0x0f)]

/-- `Quoted`. -/
def quoted (text : Bytes) : Bytes := [34] ++ text.flatMap quotedByte ++ [34]

/-- What a hexadecimal digit stands for. -/
def hexValue (d : UInt8) : Nat := (ascii "0123456789abcdef").idxOf d

/-- Reads the first byte of a quoted text, and gives what is left. -/
def unquotedByte : Bytes → Option (UInt8 × Bytes)
  | [] => none
  | c :: rest =>
    if c = 92 then
      match rest with
      | 120 :: hi :: lo :: rest => some (UInt8.ofNat (hexValue hi * 16 + hexValue lo), rest)
      | c :: rest => some (c, rest)
      | [] => none
    else some (c, rest)

theorem unquotedByte_quotedByte (c : UInt8) (rest : Bytes) :
    unquotedByte (quotedByte c ++ rest) = some (c, rest) := by
  unfold quotedByte
  split
  · next h =>
    rcases h with rfl | rfl
    · rfl
    · rfl
  · next hplain =>
    split
    · exact if_neg fun h => hplain (.inl h)
    · have hhex : UInt8.ofNat (hexValue (hexDigit (c.toNat >>> 4)) * 16 +
          hexValue (hexDigit (c.toNat &&& 0x0f))) = c := by
        revert c
        exact forall_byte (by decide +kernel)
      show some (UInt8.ofNat _, rest) = _
      rw [hhex]

/-- **Quoting is injective.** -/
theorem quoted_eq_iff {a b : Bytes} : quoted a = quoted b ↔ a = b := by
  refine ⟨fun h => ?_, fun h => h ▸ rfl⟩
  have hbody := List.append_cancel_left (List.append_cancel_right h)
  exact flatMap_inj_of_decoder rfl unquotedByte_quotedByte hbody

end Fletcher.PubSub.Registry
