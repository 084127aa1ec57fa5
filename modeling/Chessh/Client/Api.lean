import Chessh.Client.Runner

/-!
# The API frontend

The functions of `api.c`, and the loops of `runner.c` with this frontend. A function that
writes to standard output returns the bytes it writes.
-/

namespace Chessh

/-- `move_is_valid`: the call is made on a copy of the game. -/
def moveIsValid (depth : Nat) (g : Game) (m : Move) : Option Bool :=
  (makeMove depth g m).map fun result => decide (result.1 ≠ illegalMove)

/-- The moves of the four nested loops, in order. Their `promotion` is never set: it holds
whatever the memory held. -/
def allMoves (promotion : PieceType) : List Move :=
  squares.flatMap fun s => squares.map fun t => ⟨s.1, s.2, t.1, t.2, promotion⟩

/-- The loop body of `count_valid_moves`, over the moves that are left and those that have been
written; a valid move for which the buffer has no room ends the loop. -/
def collectMoves (depth : Nat) (g : Game) (buffSize : Nat) :
    List Move → List Move → Option (List Move)
  | [], found => some found
  | m :: rest, found =>
    (moveIsValid depth g m).bind fun valid =>
      if valid then
        if buffSize ≤ found.length * 2 then some found
        else collectMoves depth g buffSize rest (found ++ [m])
      else collectMoves depth g buffSize rest found

/-- `count_valid_moves`: the moves written to the buffer. -/
def countValidMoves (depth : Nat) (g : Game) (promotion : PieceType) (buffSize : Nat) :
    Option (List Move) :=
  collectMoves depth g buffSize (allMoves promotion) []

/-! ## Bytes -/

/-- `CMD_MAKE_MOVE`. -/
def cmdMakeMove : UInt8 := 0x01
/-- `CMD_GET_BOARD`. -/
def cmdGetBoard : UInt8 := 0x02
/-- `CMD_GET_VALID_MOVES`. -/
def cmdGetValidMoves : UInt8 := 0x03
/-- `CMD_INIT_GAME`. -/
def cmdInitGame : UInt8 := 0x04
/-- `CMD_BOARD_INFO`. -/
def cmdBoardInfo : UInt8 := 0x05
/-- `CMD_MOVE_INFO`. -/
def cmdMoveInfo : UInt8 := 0x06
/-- `CMD_NOTIFY`. -/
def cmdNotify : UInt8 := 0x07

/-- `white_wins`. -/
def notifyWhiteWins : UInt8 := 0x01
/-- `black_wins`. -/
def notifyBlackWins : UInt8 := 0x02
/-- `forced_draw`. -/
def notifyForcedDraw : UInt8 := 0x03
/-- `internal_server_error`. -/
def notifyInternalServerError : UInt8 := 0x04
/-- `your_turn`. -/
def notifyYourTurn : UInt8 := 0x05
/-- `illegal_move`. -/
def notifyIllegalMove : UInt8 := 0x06

/-- `NOTIFY`. -/
def notify (code : UInt8) : List UInt8 := [cmdNotify, code]

/-- The value of an `enum player`. -/
def Player.value : Player → Nat
  | .white => 0
  | .black => 1
  | .other raw => raw + 2

/-- The value of an `enum piece_type`. -/
def PieceType.value : PieceType → Nat
  | .rook => 0
  | .knight => 1
  | .bishop => 2
  | .queen => 3
  | .king => 4
  | .pawn => 5
  | .empty => 6
  | .other raw => raw + 7

/-- `get_code`. -/
def getCode (g : Game) (r c : Int) : Nat :=
  (g.get r c).player.value <<< 3 ||| (g.get r c).type.value

/-- `api_send_board`: `putchar` keeps the low eight bits of a code. -/
def apiSendBoard (g : Game) : List UInt8 :=
  (List.range 8).flatMap fun r => [0, 2, 4, 6].map fun c : Int =>
    UInt8.ofNat (getCode g r c <<< 4 ||| getCode g r (c + 1))

/-- `write_move`: the low eight bits of both expressions. -/
def writeMove (m : Move) : List UInt8 :=
  [UInt8.ofInt m.rI <<< 5 ||| UInt8.ofInt m.cI <<< 2,
    UInt8.ofInt m.rF <<< 5 ||| UInt8.ofInt m.cF <<< 2]

/-- `putword`. -/
def putword (word : UInt16) : List UInt8 := [(word >>> 8).toUInt8, word.toUInt8]

/-! ## The frontend -/

/-- The codes of `report_msg`. -/
inductive Msg
  | unknownError
  | waitingForOp
  | whiteWin
  | blackWin
  | forcedDraw
  | ioError
  | waitingForMove
  | waitingForOpMove
  | illegalMove
  | foundOpWhite
  | foundOpBlack

/-- `report_msg`. -/
def reportMsg : Msg → List UInt8
  | .unknownError | .ioError => notify notifyInternalServerError
  | .waitingForOp => []
  | .whiteWin => notify notifyWhiteWins
  | .blackWin => notify notifyBlackWins
  | .forcedDraw => notify notifyForcedDraw
  | .waitingForMove => []
  | .illegalMove => notify notifyIllegalMove
  | .foundOpWhite => [cmdInitGame, 0]
  | .foundOpBlack => [cmdInitGame, 1]
  | .waitingForOpMove => []

/-- `report_event`, for `EVENT_OP_MOVE`. -/
def reportEvent (m : Move) : List UInt8 := cmdMakeMove :: writeMove m

/-- `report_error`. -/
def reportError (_code : Int) : List UInt8 := []

/-- What a run meets outside the process. The input that is left tells its moments apart. -/
structure Outside where
  /-- What `count_valid_moves` finds in the promotion it does not set. -/
  promotion : List UInt8 → PieceType
  /-- Whether all of a move goes through to the opponent. -/
  written : List UInt8 → Bool

/-- What is left when `get_move` returns. -/
structure Asked where
  /-- What it has written. -/
  output : List UInt8
  /-- The text of a move, unless it returns `NULL`. -/
  text : Option (List Char)
  /-- The input that is left. -/
  input : List UInt8

/-- The same, behind earlier output. -/
def Asked.behind (output : List UInt8) (asked : Asked) : Asked :=
  { asked with output := output ++ asked.output }

/-- `sizeof move_buff`. -/
def moveBuffSize : Nat := 1024

/-- The loop of `get_move`; the input ends where `getchar` returns `EOF`. -/
def getMoveLoop (depth : Nat) (outside : Outside) (g : Game) : List UInt8 → Option Asked
  | [] => some ⟨[], none, []⟩
  | cmd :: rest =>
    if cmd = cmdMakeMove then
      match rest with
      | c₁ :: c₂ :: rest => some ⟨[], some (apiText c₁ c₂), rest⟩
      | _ => some ⟨[], none, []⟩
    else if cmd = cmdGetBoard then
      (getMoveLoop depth outside g rest).map (Asked.behind (cmdBoardInfo :: apiSendBoard g))
    else if cmd = cmdGetValidMoves then
      (countValidMoves depth g (outside.promotion rest) moveBuffSize).bind fun moves =>
        (getMoveLoop depth outside g rest).map
          (Asked.behind (cmdMoveInfo ::
            (putword (UInt16.ofNat moves.length) ++ moves.flatMap writeMove)))
    else some ⟨[], none, rest⟩

/-- `get_move`. -/
def getMove (depth : Nat) (outside : Outside) (g : Game) (input : List UInt8) : Option Asked :=
  (getMoveLoop depth outside g input).map (Asked.behind (notify notifyYourTurn))

/-! ## The loops of the runner -/

/-- What is left when `get_player_move` returns. -/
structure Moved where
  /-- What it has written. -/
  output : List UInt8
  /-- The code it returns. -/
  code : Int
  /-- The game. -/
  game : Game
  /-- The input that is left. -/
  input : List UInt8

/-- The same, behind earlier output. -/
def Moved.behind (output : List UInt8) (moved : Moved) : Moved :=
  { moved with output := output ++ moved.output }

/-- The loop of `get_player_move`, of at most so many turns. -/
def getPlayerMoveLoop (depth : Nat) (outside : Outside) : Nat → Game → List UInt8 → Option Moved
  | 0, _, _ => none
  | turns + 1, g, input =>
    (getMove depth outside g input).bind fun asked =>
      match asked.text with
      | none => some ⟨asked.output, ioError, g, asked.input⟩
      | some moveText =>
        (tryMove depth g moveText).bind fun (moveCode, after) =>
          if moveCode < 0 ∧ moveCode ≠ illegalMove ∧ moveCode ≠ missingPromotion then
            some ⟨asked.output, moveCode, after, asked.input⟩
          else if moveCode = illegalMove then
            (getPlayerMoveLoop depth outside turns after asked.input).map
              (Moved.behind (asked.output ++ reportMsg .illegalMove))
          else if moveCode = missingPromotion then
            (getPlayerMoveLoop depth outside turns after asked.input).map
              (Moved.behind (asked.output ++ reportError missingPromotion))
          else if outside.written asked.input then
            some ⟨asked.output, moveCode, after, asked.input⟩
          else some ⟨asked.output, ioError, after, asked.input⟩

/-- `get_player_move`. -/
def getPlayerMove (depth : Nat) (outside : Outside) (turns : Nat) (g : Game) (input : List UInt8) :
    Option Moved :=
  (getPlayerMoveLoop depth outside turns g input).map (Moved.behind (reportMsg .waitingForMove))

/-- `parse_op_move`, after the read, with what it writes. -/
def parseOpMoveReporting (depth : Nat) (g : Game) (buff : List Char) :
    Option (List UInt8 × Int × Game) :=
  if buff.length < 5 then some ([], ioError, g)
  else if buff.getLast? ≠ some nul then some ([], ioError, g)
  else
    match parseMove (cString buff) with
    | none => some ([], illegalMove, g)
    | some m =>
      (makeMove depth g m).map fun (code, after) =>
        if code < 0 then ([], code, after) else (reportEvent m, 0, after)

/-- The message of an end. -/
def EndMsg.msg : EndMsg → Msg
  | .unknownError => .unknownError
  | .whiteWin => .whiteWin
  | .blackWin => .blackWin
  | .forcedDraw => .forcedDraw
  | .ioError => .ioError

/-- The loop of `run_client`, of at most so many turns, with the input and with what the reads
return from here on; where they have ended, or where one fails, there is nothing in the buffer. -/
def gameLoop (depth : Nat) (outside : Outside) (pid : Fin 2) :
    Nat → Game → List UInt8 → List (List Char) → Option (List UInt8)
  | 0, _, _, _ => none
  | turns + 1, g, input, reads =>
    if currPlayer g = pid then
      (getPlayerMove depth outside (turns + 1) g input).bind fun moved =>
        match endMsg moved.code with
        | some msg => some (moved.output ++ reportMsg msg.msg)
        | none =>
          (gameLoop depth outside pid turns moved.game moved.input reads).map (moved.output ++ ·)
    else
      (parseOpMoveReporting depth g ((reads.headD []).take buffSize)).bind
        fun (output, moveCode, after) =>
          match endMsg moveCode with
          | some msg => some (reportMsg .waitingForOpMove ++ output ++ reportMsg msg.msg)
          | none =>
            (gameLoop depth outside pid turns after input reads.tail).map
              (reportMsg .waitingForOpMove ++ output ++ ·)

/-- `run_client`, once it has received `pid`. -/
def runClient (depth turns : Nat) (outside : Outside) (memory : Game) (pid : Fin 2)
    (input : List UInt8) (reads : List (List Char)) : Option (List UInt8) :=
  (gameLoop depth outside pid turns (newGame memory) input reads).map
    (reportMsg .waitingForOp ++
      reportMsg (if pid.val = 0 then .foundOpWhite else .foundOpBlack) ++ ·)

end Chessh
