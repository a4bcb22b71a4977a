import Fletcher.Lib.Utf8

/-!
# Strings in generated C++

Metadata is written into generated headers as string literals. `escapeCppStringLiteral` renders
the bytes between the quotes. An octal escape is kept apart from a digit behind it by ending the
literal and beginning another, so the text is a sequence of literals, and `lex` reads it as C++
does: it takes the literals apart and joins what they stand for.
-/

namespace Fletcher.Protoc

open Lib Utf8 List

variable (c : UInt8)

/-- `\nnn`. -/
def octalEscape : Bytes :=
  [92, UInt8.ofNat (48 + c.toNat / 64), UInt8.ofNat (48 + c.toNat / 8 % 8),
    UInt8.ofNat (48 + c.toNat % 8)]

/-- What one byte is written as, and whether that is an octal escape. -/
def escapedByte : Bytes × Bool :=
  if c = 92 then ([92, 92], false)
  else if c = 34 then ([92, 34], false)
  else if c = 10 then (ascii "\\n", false)
  else if c = 13 then (ascii "\\r", false)
  else if c = 9 then (ascii "\\t", false)
  else if c < 0x20 ∨ 0x7F ≤ c then (octalEscape c, true)
  else ([c], false)

def isDecimalDigit : Bool := 48 ≤ c && c ≤ 57

/-- The loop of `EscapeCppStringLiteral`, with `prev_was_octal`. -/
def escapedFrom : Bool → Bytes → Bytes
  | _, [] => []
  | octal, c :: s =>
    (if octal && isDecimalDigit c then ascii "\" \"" else []) ++ (escapedByte c).1 ++
      escapedFrom (escapedByte c).2 s

def escapeCppStringLiteral (s : Bytes) : Bytes := escapedFrom false s

/-! ## String literals -/

/-- What the text of a sequence of literals consists of. -/
inductive Piece where
  /-- A character that stands for itself. -/
  | plain (c : UInt8)
  /-- `\\`, `\"` and the like. -/
  | simple (c : UInt8)
  | octal (c : UInt8)
  /-- One literal ends, and another one begins. -/
  | gap
  deriving DecidableEq, Repr

/-- The bytes the piece stands for. -/
def Piece.value : Piece → Bytes
  | .plain c | .simple c | .octal c => [c]
  | .gap => []

/-- The character a simple escape stands for. -/
def simpleEscape : Option UInt8 :=
  if c = 34 ∨ c = 39 ∨ c = 63 ∨ c = 92 then some c
  else ([(97, 7), (98, 8), (102, 12), (110, 10), (114, 13), (116, 9), (118, 11)] :
    List (UInt8 × UInt8)).lookup c

def isOctalDigit : Bool := 48 ≤ c && c ≤ 55

/-- Where a reader of string literals is. -/
inductive Place where
  /-- Behind the last quote of a literal. -/
  | between
  | inside
  /-- Behind a backslash. -/
  | escape
  /-- In an octal escape, with the value of the digits so far and their number. -/
  | octal (n digits : Nat)

/-- A character inside of a literal. -/
def inLiteral (next : Place → Option (List Piece)) : Option (List Piece) :=
  if c = 34 then next .between
  else if c = 92 then next .escape
  else if c = 10 then none
  else (next .inside).map (.plain c :: ·)

/-- Reads string literals, one behind the other. An octal escape has up to three digits, and its
value has to fit a byte. -/
def lex : Place → Bytes → Option (List Piece)
  | .between, [] => some []
  | .between, c :: rest =>
    if c = 34 then (lex .inside rest).map (.gap :: ·)
    else if c = 32 then lex .between rest
    else none
  | .inside, c :: rest => inLiteral c fun place => lex place rest
  | .escape, c :: rest =>
    if isOctalDigit c then lex (.octal (c.toNat - 48) 1) rest
    else (simpleEscape c).bind fun d => (lex .inside rest).map (.simple d :: ·)
  | .octal n digits, c :: rest =>
    if digits < 3 && isOctalDigit c then lex (.octal (n * 8 + (c.toNat - 48)) (digits + 1)) rest
    else if n < 256 then
      (inLiteral c fun place => lex place rest).map (.octal (UInt8.ofNat n) :: ·)
    else none
  | _, [] => none

/-! ## What the escaper writes -/

/-- The piece a byte is written as. -/
def pieceOf : Piece :=
  if (escapedByte c).2 then .octal c
  else if (escapedByte c).1 = [c] then .plain c
  else .simple c

def piecesFrom : Bool → Bytes → List Piece
  | _, [] => []
  | octal, c :: s =>
    (if octal && isDecimalDigit c then [.gap] else []) ++ pieceOf c ::
      piecesFrom (escapedByte c).2 s

theorem lex_octalEscape (rest : Bytes) :
    lex .inside (octalEscape c ++ rest) = (lex .inside rest).map (.octal c :: ·) := by
  have hlt := c.toNat_lt
  have hdig : ∀ n < 8, isOctalDigit (UInt8.ofNat (48 + n)) = true ∧
      (UInt8.ofNat (48 + n)).toNat - 48 = n := by decide
  obtain ⟨h₁, hn₁⟩ := hdig (c.toNat / 64) (by omega)
  obtain ⟨h₂, hn₂⟩ := hdig (c.toNat / 8 % 8) (by omega)
  obtain ⟨h₃, hn₃⟩ := hdig (c.toNat % 8) (by omega)
  have hval : (c.toNat / 64 * 8 + c.toNat / 8 % 8) * 8 + c.toNat % 8 = c.toNat := by omega
  show lex .escape (UInt8.ofNat (48 + c.toNat / 64) :: UInt8.ofNat (48 + c.toNat / 8 % 8) ::
    UInt8.ofNat (48 + c.toNat % 8) :: rest) = _
  rw [lex, if_pos h₁, hn₁, lex, if_pos (by rw [h₂]; rfl), hn₂, lex, if_pos (by rw [h₃]; rfl), hn₃,
    hval]
  -- three digits are all there can be, whatever follows
  cases rest with
  | nil => rfl
  | cons d rest => simp [lex, show c.toNat < 256 from hlt]

theorem lex_escapedByte (rest : Bytes) :
    lex .inside ((escapedByte c).1 ++ rest) = (lex .inside rest).map (pieceOf c :: ·) := by
  unfold pieceOf escapedByte
  split
  · next h => rw [h]; rfl
  split
  · next h => rw [h]; rfl
  split
  · next h => rw [h]; rfl
  split
  · next h => rw [h]; rfl
  split
  · next h => rw [h]; rfl
  split
  · exact lex_octalEscape c rest
  · next h₁ h₂ h₃ _ _ _ =>
    show inLiteral c _ = _
    rw [inLiteral, if_neg h₂, if_neg h₁, if_neg h₃]
    simp

/-- A text is read back piece by piece. -/
theorem lex_escapedFrom : ∀ (octal : Bool) (s : Bytes),
    lex .inside (escapedFrom octal s ++ [34]) = some (piecesFrom octal s)
  | _, [] => rfl
  | octal, c :: s => by
    rw [escapedFrom, piecesFrom, append_assoc, append_assoc]
    have hbyte := lex_escapedByte c (escapedFrom (escapedByte c).2 s ++ [34])
    rw [lex_escapedFrom] at hbyte
    split
    · show (lex .inside ((escapedByte c).1 ++ _)).map (.gap :: ·) = _
      rw [hbyte]
      rfl
    · exact hbyte

/-- Literals are broken up only right behind an octal escape and before a digit, and a digit does
not follow one otherwise. The flag says that an octal escape is what came last. -/
def Separated : Bool → List Piece → Prop
  | _, [] => True
  | after, .plain d :: rest => (after = true → isDecimalDigit d = false) ∧ Separated false rest
  | _, .simple _ :: rest => Separated false rest
  | _, .octal _ :: rest => Separated true rest
  | after, .gap :: .plain d :: rest =>
    after = true ∧ isDecimalDigit d = true ∧ Separated false rest
  | _, .gap :: _ => False

theorem pieceOf_cases : pieceOf c = .plain c ∧ (escapedByte c).2 = false ∨
    isDecimalDigit c = false ∧ (pieceOf c = .simple c ∧ (escapedByte c).2 = false ∨
      pieceOf c = .octal c ∧ (escapedByte c).2 = true) := by
  revert c
  exact forall_byte (by decide +kernel)

theorem separated_piecesFrom : ∀ (octal : Bool) (s : Bytes), Separated octal (piecesFrom octal s)
  | _, [] => trivial
  | octal, c :: s => by
    have ih := separated_piecesFrom (escapedByte c).2 s
    rw [piecesFrom]
    rcases pieceOf_cases c with ⟨hp, ho⟩ | ⟨hd, ⟨hp, ho⟩ | ⟨hp, ho⟩⟩
    · rw [ho] at ih
      rw [hp, ho]
      split
      · next h =>
        rw [Bool.and_eq_true] at h
        exact ⟨h.1, h.2, ih⟩
      · next h => exact ⟨fun hoct => by simpa [hoct] using h, ih⟩
    · rw [ho] at ih
      rw [hp, ho, hd, Bool.and_false]
      exact ih
    · rw [ho] at ih
      rw [hp, ho, hd, Bool.and_false]
      exact ih

theorem value_piecesFrom : ∀ (octal : Bool) (s : Bytes),
    (piecesFrom octal s).flatMap Piece.value = s
  | _, [] => rfl
  | octal, c :: s => by
    have hval : (pieceOf c).value = [c] := by
      rcases pieceOf_cases c with ⟨hp, -⟩ | ⟨-, ⟨hp, -⟩ | ⟨hp, -⟩⟩ <;> rw [hp] <;> rfl
    rw [piecesFrom, flatMap_append, flatMap_cons, hval, value_piecesFrom]
    split
    · rfl
    · rfl

theorem printable_escapedByte :
    ∀ c, ((escapedByte c).1.all fun b => 0x20 ≤ b && b < 0x7F) = true :=
  forall_byte (by decide +kernel)

theorem printable_escapedFrom : ∀ (octal : Bool) (s : Bytes),
    ∀ b ∈ escapedFrom octal s, 0x20 ≤ b ∧ b < 0x7F
  | _, [] => nofun
  | octal, c :: s => by
    have hbyte : ∀ b ∈ (escapedByte c).1, 0x20 ≤ b ∧ b < 0x7F := by
      simpa using printable_escapedByte c
    have hgap : ∀ b ∈ (if octal && isDecimalDigit c then ascii "\" \"" else []),
        0x20 ≤ b ∧ b < 0x7F := by
      split
      · decide +kernel
      · nofun
    rw [escapedFrom, forall_mem_append, forall_mem_append]
    exact ⟨⟨hgap, hbyte⟩, printable_escapedFrom _ s⟩

/-- **Literals.** Between quotes, the text is printable and a sequence of literals that stands for
the bytes, broken up exactly where an octal escape would meet a digit. -/
theorem lex_escapeCppStringLiteral (s : Bytes) : ∃ pieces,
    lex .inside (escapeCppStringLiteral s ++ [34]) = some pieces ∧
      pieces.flatMap Piece.value = s ∧ Separated false pieces ∧
      ∀ b ∈ escapeCppStringLiteral s, 0x20 ≤ b ∧ b < 0x7F :=
  ⟨_, lex_escapedFrom false s, value_piecesFrom false s, separated_piecesFrom false s,
    printable_escapedFrom false s⟩

/-- There the text has quotes of its own. -/
theorem escaped_gap : escapeCppStringLiteral [1, 49] = ascii "\\001\" \"1" ∧
    lex .inside (escapeCppStringLiteral [1, 49] ++ [34]) = some [.octal 1, .gap, .plain 49] := by
  decide +kernel

end Fletcher.Protoc
