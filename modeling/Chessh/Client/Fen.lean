import Chessh.Client.Chess

/-!
# Loading a position

`init_game` of `chess.c`. The text is the list of characters in front of the terminating
NUL; the empty rest stands for the NUL itself. A read behind it is undefined, and so is the
arithmetic on a number that leaves the range of `int`; `initGame` reports both as `none`. Not
so for the last move of the en passant square, which on a free square is added to whatever the
memory held. A write outside the board, such as the one made for an absent en passant square,
touches no field of the game.
-/

namespace Chessh

/-- The piece letters, in lower case. -/
def letterType : Char → Option PieceType
  | 'r' => some .rook
  | 'n' => some .knight
  | 'b' => some .bishop
  | 'q' => some .queen
  | 'k' => some .king
  | 'p' => some .pawn
  | _ => none

/-- The number of moves `init_game` makes up for a piece: none for a king or for a pawn on
its start row, one for any other piece. -/
def loadedMoves (r : Int) (ch : Char) : PieceType → Int
  | .king => 0
  | .pawn => if ch.isLower then if r = 1 then 0 else 1 else if r = 6 then 0 else 1
  | _ => 1

/-- The assignments for one piece letter. -/
def loadPiece (g : Game) (r c : Int) (ch : Char) (t : PieceType) : Game :=
  g.set r c ⟨t, if ch.isLower then .black else .white, loadedMoves r ch t, 0⟩

/-- `state[i] - '0'`. -/
@[irreducible] def digitValue (ch : Char) : Nat := ch.toNat - '0'.toNat

/-- The loop for a digit: so many squares become empty. -/
def clearRun : Nat → Game → Int → Int → Game × Option Int
  | 0, g, _, c => (g, some c)
  | run + 1, g, r, c =>
    if 8 ≤ c then (g, none) else clearRun run (g.setType r c .empty) r (c + 1)

/-- The first loop of `init_game`, up to the blank after the board; `none` is `return -1`. -/
def loadBoard : List Char → Game → Int → Int → Game × Option (List Char × Int × Int)
  | [], g, _, _ => (g, none)
  | ch :: rest, g, r, c =>
    if ch = ' ' then (g, some (ch :: rest, r, c))
    else if ch = '/' then
      if c ≠ 8 then (g, none) else loadBoard rest g (r + 1) 0
    else
      match letterType ch.toLower with
      | some t => loadBoard rest (loadPiece g r c ch t) r (c + 1)
      | none =>
        if ch.isDigit then
          match clearRun (digitValue ch) g r c with
          | (g, none) => (g, none)
          | (g, some c) => loadBoard rest g r c
        else (g, none)

/-- `ROOK_CASTLE`. -/
def rookCastle (g : Game) (r c : Int) (p : Player) : Option Game :=
  if (g.get r c).type ≠ .rook ∨ (g.get r c).player ≠ p then none
  else some (g.set r c { g.get r c with moves := 0 })

/-- The loop over the castling rights. -/
def loadRights : List Char → Game → Game × Option (List Char)
  | [], g => (g, none)
  | ch :: rest, g =>
    let castle (r c : Int) (p : Player) : Game × Option (List Char) :=
      (rookCastle g r c p).elim (g, none) (loadRights rest)
    match ch with
    | 'K' => castle 7 7 .white
    | 'Q' => castle 7 0 .white
    | 'k' => castle 0 7 .black
    | 'q' => castle 0 0 .black
    | '-' =>
      match rest with
      | ' ' :: rest => (g, some rest)
      | _ => (g, none)
    | ' ' => (g, some rest)
    | _ => (g, none)

/-- `INT_MAX`. -/
def intMax : Nat := 2147483647

/-- The loop of `parse_int`: the number and the text behind it; `none` when a sum does not fit
an `int`. -/
def digitLoop : Nat → List Char → Option (Nat × List Char)
  | ret, [] => some (ret, [])
  | ret, ch :: rest =>
    if ch.isDigit then
      if intMax < ret * 10 + digitValue ch then none else digitLoop (ret * 10 + digitValue ch) rest
    else some (ret, ch :: rest)

/-- `parse_int`: the number and the text behind it, or minus one. -/
def parseInt (s : List Char) : Option (Int × List Char) :=
  if s.head?.any Char.isDigit then (digitLoop 0 s).map fun result => ((result.1 : Int), result.2)
  else some (-1, s)

/-- What follows the label `got_clock`. -/
def setClock (g : Game) (r c duration : Int) (rest : List Char) : Int × Game :=
  let g := { g with duration := g.duration + duration }
  let g := g.set r c { g.get r c with lastMove := (g.get r c).lastMove + g.duration }
  let g := { g with lastBigMove := g.lastBigMove + duration }
  (if rest = [] then 0 else -1, g)

/-- The full-move number, once the half-move clock is set. -/
def loadFull (g : Game) (r c : Int) : List Char → Option (Int × Game)
  | ' ' :: rest =>
    (parseInt rest).bind fun full =>
      if full.1 - 1 < 0 then some (-1, g)
      else if (intMax : Int) < (full.1 - 1) * 2 then none
      else some (setClock g r c ((full.1 - 1) * 2) full.2)
  | _ => some (-1, g)

/-- The two clocks, which may both be missing. -/
def loadClock (g : Game) (r c : Int) : List Char → Option (Int × Game)
  | [] => some (setClock { g with lastBigMove := 0 } r c 0 [])
  | ' ' :: rest =>
    (parseInt rest).bind fun clock =>
      if clock.1 = -1 then some (-1, { g with lastBigMove := clock.1 })
      else loadFull { g with lastBigMove := clock.1 * -1 } r c clock.2
  | _ => some (-1, g)

/-- The column letters of the en passant square. -/
def passingColumn (ch : Char) : Option Int :=
  match ch with
  | 'a' => some 0
  | 'b' => some 1
  | 'c' => some 2
  | 'd' => some 3
  | 'e' => some 4
  | 'f' => some 5
  | 'g' => some 6
  | 'h' => some 7
  | _ => none

/-- The en passant square. A rank other than two or five leaves the row at that of the last
row of the board that was read. -/
def loadPassing (g : Game) (r : Int) : List Char → Option (Int × Game)
  | [] => some (-1, g)
  | '-' :: rest => loadClock g (-1) (-1) rest
  | ch :: rest =>
    match passingColumn ch with
    | none => some (-1, g)
    | some c =>
      match rest with
      | [] => none
      | rank :: rest =>
        loadClock g (if rank = '2' then 3 else if rank = '5' then 4 else r) c rest

/-- What follows the side to move. -/
def loadRest (g : Game) (r : Int) : List Char → Option (Int × Game)
  | ' ' :: rest =>
    match loadRights rest g with
    | (g, none) => some (-1, g)
    | (g, some rest) => loadPassing g r rest
  | _ => some (-1, g)

/-- `init_game`. -/
def initGame (g : Game) (state : List Char) : Option (Int × Game) :=
  match loadBoard state g 0 0 with
  | (g, none) => some (-1, g)
  | (g, some (rest, r, c)) =>
    if r < 7 ∨ c < 7 then some (-1, g)
    else
      match rest with
      | ' ' :: 'w' :: rest => loadRest { g with duration := 0 } r rest
      | ' ' :: 'b' :: rest => loadRest { g with duration := 1 } r rest
      | _ => some (-1, g)

end Chessh
