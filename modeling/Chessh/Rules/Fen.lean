import Chessh.Rules.Notation
import Chessh.Rules.Position

/-!
# Forsyth-Edwards Notation

A text of five fields: the eight rows of the board, the side to move, the rights to castle, the
square behind a pawn that has just made a double step, and, unless they are left out, the two
clocks. A row is a string of letters, each for a man, and of digits, each for so many free
squares.
-/

namespace Rules

/-- The kind a lower-case letter stands for. -/
def kindOf : Char → Option Kind
  | 'r' => some .rook
  | 'n' => some .knight
  | 'b' => some .bishop
  | 'q' => some .queen
  | 'k' => some .king
  | 'p' => some .pawn
  | _ => none

/-- The man a letter stands for. -/
def manOf (ch : Char) : Option Man :=
  (kindOf ch.toLower).map fun kind => ⟨if ch.isLower then .black else .white, kind⟩

/-- The letter of the side to move. -/
def sideLetter : Side → Char
  | .white => 'w'
  | .black => 'b'

/-- The letter of a right to castle. -/
def rightLetter : Side × Wing → Char
  | (.white, .kingside) => 'K'
  | (.white, .queenside) => 'Q'
  | (.black, .kingside) => 'k'
  | (.black, .queenside) => 'q'

/-- The text of the rights, or of their absence. -/
def rightsText (rights : List (Side × Wing)) : List Char :=
  if rights = [] then ['-'] else rights.map rightLetter

/-- The letters of the columns. -/
def files : List Char := ['a', 'b', 'c', 'd', 'e', 'f', 'g', 'h']

/-- The text of the clocks, or nothing. -/
def clocksText : Option (List Char × List Char) → List Char
  | none => []
  | some (half, full) => ' ' :: (half ++ ' ' :: full)

/-- The clocks are decimal numbers, and moves are counted from one. -/
def ClocksValid (clocks : Option (List Char × List Char)) : Prop :=
  ∀ half full, clocks = some (half, full) →
    (half ≠ [] ∧ ∀ ch ∈ half, ch.isDigit = true) ∧
      (full ≠ [] ∧ ∀ ch ∈ full, ch.isDigit = true) ∧ 1 ≤ numeral full

/-- The squares a row describes, from left to right. -/
def rankSquares : List Char → Option (List (Option Man))
  | [] => some []
  | ch :: rest =>
    match manOf ch with
    | some man => (rankSquares rest).map (some man :: ·)
    | none =>
      if ch.isDigit then (rankSquares rest).map (List.replicate (numeral [ch]) none ++ ·) else none

/-- The rows, separated by strokes. -/
def ranksText : List (List Char) → List Char
  | [] => []
  | [rank] => rank
  | rank :: next :: ranks => rank ++ '/' :: ranksText (next :: ranks)

/-- The fields of a text. -/
structure Fen where
  /-- The rows of the board, from the row of Black's officers. -/
  ranks : List (List Char)
  /-- The side to move. -/
  side : Side
  /-- The rights to castle. -/
  rights : List (Side × Wing)
  /-- The column and the rank of the en passant square, if there is one. -/
  passing : Option (Char × Char)
  /-- The digits of the half-move clock and of the number of the move. -/
  clocks : Option (List Char × List Char)

namespace Fen

variable (f : Fen)

/-- The text of the en passant square, or of its absence. -/
def passingText : List Char :=
  match f.passing with
  | none => ['-']
  | some (file, rank) => [file, rank]

/-- The whole text. -/
def text : List Char :=
  ranksText f.ranks ++ ' ' :: sideLetter f.side :: ' ' ::
    (rightsText f.rights ++ ' ' :: (f.passingText ++ clocksText f.clocks))

/-- The men on the board. -/
def board : Placement := fun s =>
  if s.1 < 0 ∨ s.2 < 0 then none
  else ((f.ranks[s.1.toNat]?.bind rankSquares).bind (·[s.2.toNat]?)).join

/-- The position that the fields describe. -/
def position : Position where
  board := f.board
  turn := f.side
  rights side wing := (side, wing) ∈ f.rights
  passing := f.passing.map fun square => (files.idxOf square.1 : Int)

/-- The fields say what they should. -/
structure Valid : Prop where
  /-- There are eight rows. -/
  eight : f.ranks.length = 8
  /-- Each describes eight squares. -/
  rank : ∀ rank ∈ f.ranks, ∃ squares, rankSquares rank = some squares ∧ squares.length = 8
  /-- King and rook of every right are at home. -/
  rights : ∀ right ∈ f.rights, f.board (right.1.homeRow, 4) = some ⟨right.1, .king⟩ ∧
    f.board (right.1.homeRow, right.2.corner) = some ⟨right.1, .rook⟩
  /-- The en passant square lies behind the row of a double step. -/
  passing : ∀ file rank, f.passing = some (file, rank) → file ∈ files ∧ (rank = '3' ∨ rank = '6')
  /-- The clocks are numbers. -/
  clocks : ClocksValid f.clocks

end Fen

/-- The text is a position. -/
def IsFen (text : List Char) : Prop := ∃ f : Fen, f.Valid ∧ f.text = text

end Rules
