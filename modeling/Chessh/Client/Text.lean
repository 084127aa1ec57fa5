import Chessh.Client.Chess

/-!
# Moves as text

`parse_move`, `move_to_string` and `piece_to_char` of `chess.c`, and `api_get_move` of
`api.c`, which makes a move of two bytes. A text is the list of characters in front of its
terminating NUL.
-/

namespace Chessh

/-- The terminating character. -/
def nul : Char := Char.ofNat 0

/-- The text that starts a buffer. -/
def cString (buff : List Char) : List Char := buff.takeWhile (· ≠ nul)

/-- The conversion of an integer to a byte. -/
def toChar (n : Int) : Char := Char.ofNat (n % 256).toNat

/-- The value of a byte. -/
def ofChar (ch : Char) : Int := ch.toNat

/-- `piece_to_char`. -/
def pieceToChar : PieceType → Char
  | .rook => 'r'
  | .knight => 'n'
  | .bishop => 'b'
  | .queen => 'q'
  | .king => 'k'
  | .pawn => 'p'
  | .empty | .other _ => nul

/-- `move_to_string`. -/
def moveToString (m : Move) : List Char :=
  cString ([toChar (m.cI + ofChar 'a'), toChar (8 - m.rI + ofChar '0'),
    toChar (m.cF + ofChar 'a'), toChar (8 - m.rF + ofChar '0')] ++
    if m.promotion = .empty then [nul] else [pieceToChar m.promotion, nul])

/-- `parse_move`; `none` is `return ILLEGAL_MOVE`. -/
def parseMove : List Char → Option Move
  | a :: b :: c :: d :: rest =>
    let move (promotion : PieceType) : Move :=
      { rI := 8 - (ofChar b - ofChar '0'), cI := ofChar a.toLower - ofChar 'a'
        rF := 8 - (ofChar d - ofChar '0'), cF := ofChar c.toLower - ofChar 'a'
        promotion := promotion }
    match rest.head?.map Char.toLower with
    | some 'n' => some (move .knight)
    | some 'q' => some (move .queen)
    | some 'r' => some (move .rook)
    | some 'b' => some (move .bishop)
    | none => some (move .empty)
    | some _ => none
  | _ => none

/-- The enumerators of `enum piece_type` that two bits can name. -/
def ofBits (bits : UInt8) : PieceType :=
  match bits.toNat with
  | 0 => .rook
  | 1 => .knight
  | 2 => .bishop
  | _ => .queen

/-- `api_get_move`, after both bytes have been read. -/
def apiGetMove (c₁ c₂ : UInt8) : Move where
  rI := ((c₁ >>> 5) &&& 7).toNat
  cI := ((c₁ >>> 2) &&& 7).toNat
  rF := ((c₂ >>> 5) &&& 7).toNat
  cF := ((c₂ >>> 2) &&& 7).toNat
  promotion := if c₁ &&& 2 ≠ 0 then ofBits (c₂ &&& 3) else .empty

/-- `get_move` of the API, once two bytes for a move have come in. -/
def apiText (c₁ c₂ : UInt8) : List Char := moveToString (apiGetMove c₁ c₂)

end Chessh
