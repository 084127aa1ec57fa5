import Chessh.Wire.Message

/-!
# Sessions

What a client hears in the course of a game, beside the bytes it sends: its own turns and the
moves of its opponent in alternation, and one notification that is the last.
-/

namespace Wire

/-- The answers to the requests in front of the bytes that are left. -/
inductive Answers : List UInt8 → List Message → List UInt8 → Prop
  /-- Nothing is asked for. -/
  | none (sent : List UInt8) : Answers sent [] sent
  /-- The client asks for the board. -/
  | board {sent heard left} (board : BoardBytes) (answers : Answers sent heard left) :
      Answers (Command.getBoard.byte :: sent) (.boardInfo board :: heard) left
  /-- The client asks for its moves. -/
  | moves {sent heard left} (moves : MoveList) (answers : Answers sent heard left) :
      Answers (Command.getValidMoves.byte :: sent) (.moveInfo moves :: heard) left

/-- No bytes are sent back. -/
theorem Answers.length_le {sent left : List UInt8} {heard : List Message}
    (answers : Answers sent heard left) : left.length ≤ sent.length := by
  induction answers with
  | none => exact le_rfl
  | board _ _ ih | moves _ _ ih => exact ih.trans (Nat.le_succ _)

/-- A move behind the requests takes bytes. -/
theorem Answers.move_lt {sent left : List UInt8} {heard : List Message} {cmd c₁ c₂ : UInt8}
    (answers : Answers sent heard (cmd :: c₁ :: c₂ :: left)) : left.length < sent.length := by
  have long := answers.length_le
  simp only [List.length_cons] at long
  omega

/-- The client has stopped, in a turn or in a move, or sends what it may not send in a turn. -/
inductive Broken : List UInt8 → Prop
  /-- Nothing more is sent. -/
  | stopped : Broken []
  /-- A move is not complete. -/
  | cut {sent} (short : sent.length < 2) : Broken (Command.makeMove.byte :: sent)
  /-- No command of a turn has this byte. -/
  | stray {byte sent} (move : byte ≠ Command.makeMove.byte) (board : byte ≠ Command.getBoard.byte)
      (moves : byte ≠ Command.getValidMoves.byte) : Broken (byte :: sent)

/-- A turn behind its notification: what the client hears until it has made its move, with the
bytes that are left behind the move, or until it breaks off. -/
inductive Turn : List UInt8 → List Message → Option (List UInt8) → Prop
  /-- The turn is over with a move. -/
  | moved {sent heard c₁ c₂ left}
      (answers : Answers sent heard (Command.makeMove.byte :: c₁ :: c₂ :: left)) :
      Turn sent heard (some left)
  /-- A move is illegal, and the turn starts again. -/
  | illegal {sent heard c₁ c₂ left later ending}
      (answers : Answers sent heard (Command.makeMove.byte :: c₁ :: c₂ :: left))
      (turn : Turn left later ending) :
      Turn sent (heard ++ .notify .illegalMove :: .notify .yourTurn :: later) ending
  /-- A move is not taken, and the turn starts again. -/
  | again {sent heard c₁ c₂ left later ending}
      (answers : Answers sent heard (Command.makeMove.byte :: c₁ :: c₂ :: left))
      (turn : Turn left later ending) : Turn sent (heard ++ .notify .yourTurn :: later) ending
  /-- The client breaks off. -/
  | broken {sent heard left} (answers : Answers sent heard left) (broken : Broken left) :
      Turn sent heard none

/-- The notifications that end a game. -/
def lastNotices : List Notice := [.whiteWins, .blackWins, .forcedDraw, .internalServerError]

/-- A game from an own turn on, or from a turn of the opponent. -/
inductive Play : Bool → List UInt8 → List Message → Prop
  /-- The client makes its move. -/
  | own {sent heard left later} (turn : Turn sent heard (some left))
      (play : Play false left later) :
      Play true sent (.notify .yourTurn :: (heard ++ later))
  /-- The client breaks its turn off. -/
  | broken {sent heard} (turn : Turn sent heard none) :
      Play true sent (.notify .yourTurn :: (heard ++ [.notify .internalServerError]))
  /-- The opponent makes its move. -/
  | opponent {sent later} (move : MovePair) (play : Play true sent later) :
      Play false sent (.makeMove move :: later)
  /-- The game is over, behind a move of the client or in place of one of the opponent. -/
  | ended {sent} (last : Notice) (ends : last ∈ lastNotices) : Play false sent [.notify last]

/-- What the client that plays for the given player hears, who starts when it is White. -/
inductive Session (player : Fin 2) (sent : List UInt8) : List Message → Prop
  /-- The game begins. -/
  | start {heard} (play : Play (player = 0) sent heard) :
      Session player sent (.initGame (UInt8.ofNat player) :: heard)

end Wire
