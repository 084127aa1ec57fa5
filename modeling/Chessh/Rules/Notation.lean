import Chessh.Rules.Board

/-!
# Positions as text

The first field of Forsyth-Edwards Notation: the men of a placement row by row from the row
of Black's officers, upper-case letters for White, a digit for every maximal run of free
squares.
-/

namespace Rules

/-- The letter of a kind. -/
def Kind.letter : Kind → Char
  | .rook => 'r'
  | .knight => 'n'
  | .bishop => 'b'
  | .queen => 'q'
  | .king => 'k'
  | .pawn => 'p'

/-- The letter of a man. -/
def Man.letter (man : Man) : Char :=
  match man.side with
  | .white => man.kind.letter.toUpper
  | .black => man.kind.letter

/-- The number that decimal digits stand for. -/
def numeral (digits : List Char) : Nat := Nat.ofDigitChars 10 digits 0

/-- A run of free squares, if there is one. -/
def gap (free : Nat) : List Char := if free = 0 then [] else [Nat.digitChar free]

namespace Placement

variable (board : Placement)

/-- The text of the rest of a row from a column on, behind a run of free squares. -/
def rowText (r : Int) : Nat → Int → Nat → List Char
  | 0, _, free => gap free
  | left + 1, c, free =>
    match board (r, c) with
    | none => rowText r left (c + 1) (free + 1)
    | some man => gap free ++ man.letter :: rowText r left (c + 1) 0

/-- The text of a row and of so many rows after it. -/
def rowsText : Nat → Int → List Char
  | 0, r => board.rowText r 8 0 0
  | more + 1, r => board.rowText r 8 0 0 ++ '/' :: rowsText more (r + 1)

/-- The text of the eight rows. -/
def text : List Char := board.rowsText 7 0

end Placement

/-- Upper case is for White. -/
theorem Man.letter_isLower (man : Man) : man.letter.isLower = true ↔ man.side = .black := by
  obtain ⟨side, kind⟩ := man
  cases side <;> cases kind <;> decide

/-- The case aside, the letter is that of the kind. -/
theorem Man.letter_toLower (man : Man) : man.letter.toLower = man.kind.letter := by
  obtain ⟨side, kind⟩ := man
  cases side <;> cases kind <;> decide

/-- A letter is neither a blank nor a stroke. -/
theorem Man.letter_ne (man : Man) : man.letter ≠ ' ' ∧ man.letter ≠ '/' := by
  obtain ⟨side, kind⟩ := man
  cases side <;> cases kind <;> decide

end Rules
