import StackNative.Text.Basic

/-!
# Characters of a text

**Input.** A text.
**Algorithm.** Reads from the left; a byte that does not begin a complete,
shortest-form sequence stands for itself, and reading goes on at the next byte.
**Results.** `pieces` is the reading, `ofPieces` writes one back,
`isValid` says that no byte stands alone.
-/

namespace StackNative
namespace Text

/-- One unit of a text: a character, or a byte that belongs to none. -/
inductive Piece where
  | scalar (c : Char)
  | stray (b : UInt8)
  deriving DecidableEq, Repr

section Sequences

/-- A byte that may follow another one inside a sequence. -/
def isTail (b : UInt8) : Bool := 0x80 ≤ b && b ≤ 0xbf

/-- The second byte that may follow a given first byte of two bytes. -/
def accepts2 (a b : UInt8) : Bool := 0xc2 ≤ a && a ≤ 0xdf && isTail b

/-- The first two bytes of a sequence of three bytes. -/
def accepts3 (a b : UInt8) : Bool :=
  if a == 0xe0 then 0xa0 ≤ b && b ≤ 0xbf
  else if a == 0xed then 0x80 ≤ b && b ≤ 0x9f
  else 0xe1 ≤ a && a ≤ 0xef && isTail b

/-- The first two bytes of a sequence of four bytes. -/
def accepts4 (a b : UInt8) : Bool :=
  if a == 0xf0 then 0x90 ≤ b && b ≤ 0xbf
  else if a == 0xf4 then 0x80 ≤ b && b ≤ 0x8f
  else 0xf1 ≤ a && a ≤ 0xf3 && isTail b

/-- The payload of a byte inside a sequence. -/
def tailBits (b : UInt8) : Nat := b.toNat % 64

/-- The character that begins a text, with the number of bytes it has after the first. -/
def frontChar : Text → Option (Char × Nat)
  | [] => none
  | a :: rest =>
    if a < 0x80 then some (Char.ofNat a.toNat, 0)
    else match rest with
      | [] => none
      | b :: rest =>
        if accepts2 a b then some (Char.ofNat (a.toNat % 32 * 64 + tailBits b), 1)
        else match rest with
          | [] => none
          | c :: rest =>
            if accepts3 a b && isTail c then
              some (Char.ofNat ((a.toNat % 16 * 64 + tailBits b) * 64 + tailBits c), 2)
            else match rest with
              | [] => none
              | d :: _ =>
                if accepts4 a b && isTail c && isTail d then
                  some (Char.ofNat
                    (((a.toNat % 8 * 64 + tailBits b) * 64 + tailBits c) * 64 + tailBits d), 3)
                else none

/-- The units of a text after those already read, where the first `skip` bytes belong to the last
of them. -/
def piecesOnto (done : Array Piece) (skip : Nat) : Text → Array Piece
  | [] => done
  | a :: rest =>
    match skip with
    | skip + 1 => piecesOnto done skip rest
    | 0 =>
      match frontChar (a :: rest) with
      | some (c, more) => piecesOnto (done.push (.scalar c)) more rest
      | none => piecesOnto (done.push (.stray a)) 0 rest

end Sequences

/-- The characters and stray bytes of a text. -/
def pieces (t : Text) : List Piece := (piecesOnto #[] 0 t).toList

/-- The bytes of one unit. -/
def Piece.bytes : Piece → Text
  | .scalar c => String.utf8EncodeChar c
  | .stray b => [b]

/-- The text that consists of the given units. -/
def ofPieces (ps : List Piece) : Text := ps.flatMap Piece.bytes

/-- Every byte belongs to a character. -/
def isValid (t : Text) : Bool :=
  t.all (· < 0x80) || (pieces t).all fun
    | .scalar _ => true
    | .stray _ => false

end Text
end StackNative
