import Chessh.Client.Api
import Chessh.Verif.Exchange
import Chessh.Wire.Session

/-!
# What a client hears

Whatever bytes a player sends and whatever the reads from the opponent return, `run_client`
ends, and the bytes it has written are the messages of a session, in one way only:
`runClient_session`.
-/

namespace Chessh

open Wire

/-! ## Messages -/

/-- The messages of a list, as bytes. -/
abbrev bytes (heard : List Message) : List UInt8 := heard.flatMap Message.encode

/-- The move `write_move` writes. -/
def movePair (m : Move) : MovePair :=
  (UInt8.ofInt m.rI <<< 5 ||| UInt8.ofInt m.cI <<< 2,
    UInt8.ofInt m.rF <<< 5 ||| UInt8.ofInt m.cF <<< 2)

/-- The opponent's move is a message. -/
theorem reportEvent_bytes (m : Move) : reportEvent m = bytes [.makeMove (movePair m)] := rfl

/-- The notification of an end. -/
def EndMsg.notice : EndMsg → Notice
  | .unknownError | .ioError => .internalServerError
  | .whiteWin => .whiteWins
  | .blackWin => .blackWins
  | .forcedDraw => .forcedDraw

/-- The report of an end is a message. -/
theorem EndMsg.msg_bytes (msg : EndMsg) : reportMsg msg.msg = bytes [.notify msg.notice] := by
  cases msg <;> rfl

/-- It is one of those that end a game. -/
theorem EndMsg.notice_ends (msg : EndMsg) : msg.notice ∈ lastNotices := by
  cases msg <;> decide

/-- A board takes thirty-two bytes. -/
theorem apiSendBoard_length (g : Game) : (apiSendBoard g).length = 32 := rfl

/-- A word is written as the count of a list is. -/
theorem putword_eq {n : Nat} (fits : n < 65536) : putword (UInt16.ofNat n) = wordBytes n := by
  have high : ((UInt16.ofNat n) >>> 8).toUInt8 = UInt8.ofNat (n / 256) := by
    apply UInt8.toNat_inj.mp
    have shift : (8 : UInt16).toNat % 16 = 8 := rfl
    simp only [UInt16.toNat_toUInt8, UInt16.toNat_shiftRight, UInt16.toNat_ofNat',
      UInt8.toNat_ofNat',
      shift, Nat.shiftRight_eq_div_pow]
    omega
  have low : (UInt16.ofNat n).toUInt8 = UInt8.ofNat n := by
    apply UInt8.toNat_inj.mp
    simp only [UInt16.toNat_toUInt8, UInt16.toNat_ofNat', UInt8.toNat_ofNat']
    omega
  rw [putword, high, low]
  rfl

/-- A list of moves that fills the buffer at most is a message. -/
theorem moveInfo_bytes {moves : List Move} (fits : moves.length ≤ 512) :
    ∃ list : MoveList,
      cmdMoveInfo :: (putword (UInt16.ofNat moves.length) ++ moves.flatMap writeMove) =
      Message.encode (.moveInfo list) := by
  have short : (moves.map movePair).length < 65536 := by
    rw [List.length_map]
    omega
  refine ⟨⟨moves.map movePair, short⟩, ?_⟩
  rw [putword_eq (by omega), Message.encode, Message.arguments, List.length_map, List.flatMap_map]
  rfl

/-! ## Requests -/

section Requests

variable {g : Game}

/-- The list of valid moves is found, and fits the buffer. -/
theorem collectMoves_fits (sound : Sound g) {buffSize : Nat} (rest found : List Move)
    (fits : found.length * 2 ≤ buffSize + 1) :
    ∃ list, (∀ depth, collectMoves (depth + 1) g buffSize rest found = some list) ∧
      list.length * 2 ≤ buffSize + 1 := by
  induction rest generalizing found with
  | nil => exact ⟨found, fun _ => rfl, fits⟩
  | cons m rest ih =>
    obtain ⟨code, after, asked, -⟩ := makeMove_made sound m
    simp only [collectMoves, moveIsValid, asked, Option.map_some, Option.bind_some]
    by_cases accepted : code = illegalMove
    · simpa only [accepted, ne_eq, not_true_eq_false, decide_false, Bool.false_eq_true, ↓reduceIte]
        using ih found fits
    simp only [accepted, ne_eq, not_false_eq_true, decide_true, ↓reduceIte]
    by_cases full : buffSize ≤ found.length * 2
    · simp only [full, ↓reduceIte]
      exact ⟨found, fun _ => rfl, fits⟩
    · simpa only [full, ↓reduceIte] using ih (found ++ [m]) (by
        rw [List.length_append, List.length_singleton]
        omega)

/-- What `get_move` leaves when it has answered the requests in front of a move, or of the end of
the turn. -/
inductive Requested (sent : List UInt8) (heard : List Message) : Asked → Prop
  /-- A move follows. -/
  | move {c₁ c₂ left} (answers : Answers sent heard (cmdMakeMove :: c₁ :: c₂ :: left)) :
      Requested sent heard ⟨bytes heard, some (apiText c₁ c₂), left⟩
  /-- Nothing follows that is a command of a turn. -/
  | broken {left rest} (answers : Answers sent heard left) (broken : Broken left) :
      Requested sent heard ⟨bytes heard, none, rest⟩

/-- A board is sent in front. -/
theorem Requested.board {sent : List UInt8} {heard : List Message} {asked : Asked}
    (requested : Requested sent heard asked) (g : Game) :
    Requested (cmdGetBoard :: sent) (.boardInfo ⟨apiSendBoard g, apiSendBoard_length g⟩ :: heard)
      (asked.behind (cmdBoardInfo :: apiSendBoard g)) := by
  cases requested with
  | move answers => exact .move (.board _ answers)
  | broken answers broken => exact .broken (.board _ answers) broken

/-- A list of moves is sent in front. -/
theorem Requested.moves {sent : List UInt8} {heard : List Message} {asked : Asked}
    (requested : Requested sent heard asked) (list : MoveList) :
    Requested (cmdGetValidMoves :: sent) (.moveInfo list :: heard)
      (asked.behind (Message.encode (.moveInfo list))) := by
  cases requested with
  | move answers => exact .move (.moves list answers)
  | broken answers broken => exact .broken (.moves list answers) broken

/-- The loop of `get_move` answers every request. -/
theorem getMoveLoop_requested (sound : Sound g) (outside : Outside) (input : List UInt8) :
    ∃ asked heard, (∀ depth, getMoveLoop (depth + 1) outside g input = some asked) ∧
      Requested input heard asked := by
  induction input with
  | nil => exact ⟨_, [], fun _ => rfl, .broken (.none []) .stopped⟩
  | cons cmd rest ih =>
    obtain ⟨asked, heard, loops, requested⟩ := ih
    by_cases move : cmd = cmdMakeMove
    · subst move
      cases rest with
      | nil => exact ⟨_, [], fun _ => rfl, .broken (.none _) (.cut (Nat.zero_lt_succ _))⟩
      | cons c₁ rest =>
        cases rest with
        | nil => exact ⟨_, [], fun _ => rfl, .broken (.none _) (.cut (Nat.lt_succ_self _))⟩
        | cons c₂ left => exact ⟨_, [], fun _ => rfl, .move (.none _)⟩
    by_cases board : cmd = cmdGetBoard
    · subst board
      refine ⟨_, _, fun depth => ?_, requested.board g⟩
      unfold getMoveLoop
      rw [if_neg move, if_pos rfl, loops]
      rfl
    by_cases moves : cmd = cmdGetValidMoves
    · subst moves
      obtain ⟨list, counts, fits⟩ := @collectMoves_fits g sound moveBuffSize
        (allMoves (outside.promotion rest)) [] (Nat.zero_le _)
      obtain ⟨info, same⟩ := @moveInfo_bytes list (by simp only [moveBuffSize] at fits; omega)
      refine ⟨_, _, fun depth => ?_, requested.moves info⟩
      unfold getMoveLoop
      rw [if_neg move, if_neg board, if_pos rfl, countValidMoves, counts,
        Option.bind_some, loops, same]
      rfl
    · refine ⟨⟨[], none, rest⟩, [], fun depth => ?_, .broken (.none _) (.stray move board moves)⟩
      unfold getMoveLoop
      rw [if_neg move, if_neg board, if_neg moves]

end Requests

/-! ## Turns -/

/-- A call keeps a sound board; when it is accepted the opponent is to move, and otherwise the same
player is. -/
theorem Sound.called {g : Game} (sound : Sound g) (m : Move) :
    ∃ code after, (∀ depth, makeMove (depth + 1) g m = some (code, after)) ∧ Sound after ∧
      (Accepted code → currPlayer after = peer (currPlayer g)) ∧
      (¬ Accepted code → currPlayer after = currPlayer g) := by
  obtain ⟨code, after, asked, made⟩ := makeMove_made sound m
  have returns : Returns g m code after := .of_asked asked
  exact ⟨code, after, asked, made.sound sound,
    fun accepted => currPlayer_succ (returns.turn sound accepted),
    fun refused => currPlayer_congr (returns.no_turn sound refused).duration⟩

/-- What `get_player_move` leaves when the turn of a player is over. -/
inductive Took (player : Fin 2) (sent : List UInt8) (heard : List Message) : Moved → Prop
  /-- A move is made, and the opponent is to move. -/
  | moved {code after left} (turn : Turn sent heard (some left))
    (shorter : left.length < sent.length)
      (sound : Sound after) (passes : currPlayer after = peer player) :
      Took player sent heard ⟨bytes (.notify .yourTurn :: heard), code, after, left⟩
  /-- The player breaks off. -/
  | broken {after rest} (turn : Turn sent heard none) :
      Took player sent heard ⟨bytes (.notify .yourTurn :: heard), ioError, after, rest⟩

section Turns

variable {g : Game} {depth turns : Nat} {outside : Outside} {input output rest : List UInt8}

/-- Without a move the loop of `get_player_move` ends. -/
theorem getPlayerMoveLoop_broken
    (loops : getMoveLoop depth outside g input = some ⟨output, none, rest⟩) :
    getPlayerMoveLoop depth outside (turns + 1) g input =
      some ⟨notify notifyYourTurn ++ output, ioError, g, rest⟩ := by
  rw [getPlayerMoveLoop, getMove, loops]
  rfl

variable {c₁ c₂ : UInt8} {code : Int} {after : Game}

/-- With a move it goes by the code of the move. -/
theorem getPlayerMoveLoop_move
    (loops : getMoveLoop depth outside g input = some ⟨output, some (apiText c₁ c₂), rest⟩)
    (asked : makeMove depth g (apiGetMove c₁ c₂) = some (code, after)) :
    getPlayerMoveLoop depth outside (turns + 1) g input =
      if code < 0 ∧ code ≠ illegalMove ∧ code ≠ missingPromotion then
        some ⟨notify notifyYourTurn ++ output, code, after, rest⟩
      else if code = illegalMove then
        (getPlayerMoveLoop depth outside turns after rest).map
          (Moved.behind (notify notifyYourTurn ++ output ++ reportMsg .illegalMove))
      else if code = missingPromotion then
        (getPlayerMoveLoop depth outside turns after rest).map
          (Moved.behind (notify notifyYourTurn ++ output ++ reportError missingPromotion))
      else if outside.written rest then some ⟨notify notifyYourTurn ++ output, code, after, rest⟩
      else some ⟨notify notifyYourTurn ++ output, ioError, after, rest⟩ := by
  have tries := (congrFun (@tryMove_text g c₁ c₂) depth).trans asked
  rw [getPlayerMoveLoop, getMove, loops]
  simp only [Option.map_some, Option.bind_some, Asked.behind, tries]

/-- A move that is made ends the turn, with its code or that of a write that fails. -/
theorem getPlayerMoveLoop_accepted
    (loops : getMoveLoop depth outside g input = some ⟨output, some (apiText c₁ c₂), rest⟩)
    (asked : makeMove depth g (apiGetMove c₁ c₂) = some (code, after)) (accepted : Accepted code) :
    getPlayerMoveLoop depth outside (turns + 1) g input =
      some ⟨notify notifyYourTurn ++ output,
        if code < 0 ∨ outside.written rest then code else ioError, after, rest⟩ := by
  rw [getPlayerMoveLoop_move loops asked]
  by_cases negative : code < 0
  · rw [if_pos ⟨negative, accepted⟩, if_pos (Or.inl negative)]
  rw [if_neg fun played => negative played.1, if_neg accepted.1, if_neg accepted.2]
  by_cases through : outside.written rest
  · rw [if_pos through, if_pos (Or.inr through)]
  · rw [if_neg through, if_neg fun sent => sent.elim negative through]

/-- What the player hears of a refusal. -/
def refusal (code : Int) : List Message :=
  if code = illegalMove then [.notify .illegalMove] else []

/-- A move that is refused starts the turn again. -/
theorem getPlayerMoveLoop_refused
    (loops : getMoveLoop depth outside g input = some ⟨output, some (apiText c₁ c₂), rest⟩)
    (asked : makeMove depth g (apiGetMove c₁ c₂) = some (code, after)) (refused : ¬ Accepted code) :
    getPlayerMoveLoop depth outside (turns + 1) g input =
      (getPlayerMoveLoop depth outside turns after rest).map
        (Moved.behind (notify notifyYourTurn ++ output ++ bytes (refusal code))) := by
  rw [getPlayerMoveLoop_move loops asked, if_neg fun played => refused played.2]
  by_cases illegal : code = illegalMove
  · rw [if_pos illegal, refusal, if_pos illegal]
    rfl
  · have missing : code = missingPromotion := by
      by_contra other
      exact refused ⟨illegal, other⟩
    rw [if_neg illegal, if_pos missing, refusal, if_neg illegal]
    rfl

end Turns

/-- A refusal starts a turn again. -/
theorem turn_again {sent left : List UInt8} {heard later : List Message} {c₁ c₂ : UInt8}
    {ending : Option (List UInt8)} (code : Int)
    (answers : Answers sent heard (cmdMakeMove :: c₁ :: c₂ :: left))
    (turn : Turn left later ending) :
    Turn sent (heard ++ (refusal code ++ .notify .yourTurn :: later)) ending := by
  unfold refusal
  split
  · exact .illegal answers turn
  · exact .again answers turn

/-- The turn starts again behind a move that is refused. -/
theorem Took.again {player : Fin 2} {sent left : List UInt8} {heard later : List Message}
    {c₁ c₂ : UInt8} {moved : Moved} (code : Int)
    (answers : Answers sent heard (cmdMakeMove :: c₁ :: c₂ :: left))
    (took : Took player left later moved) :
    Took player sent (heard ++ (refusal code ++ .notify .yourTurn :: later))
      (moved.behind (notify notifyYourTurn ++ bytes heard ++ bytes (refusal code))) := by
  have output : notify notifyYourTurn ++ bytes heard ++ bytes (refusal code) ++
      bytes (.notify .yourTurn :: later) =
      bytes (.notify .yourTurn :: (heard ++ (refusal code ++ .notify .yourTurn :: later))) := by
    simp only [bytes, List.flatMap_cons, List.flatMap_append, List.append_assoc]
    rfl
  cases took with
  | moved turn shorter sound passes =>
    rw [Moved.behind, output]
    exact .moved (turn_again code answers turn) (shorter.trans answers.move_lt) sound passes
  | broken turn =>
    rw [Moved.behind, output]
    exact .broken (turn_again code answers turn)

/-- The loop of `get_player_move` takes a turn. -/
theorem getPlayerMoveLoop_took (outside : Outside) (bound : Nat) {g : Game} (sound : Sound g)
    {input : List UInt8} (enough : input.length < bound) :
    ∃ moved heard, (∀ depth extra,
        getPlayerMoveLoop (depth + 1) outside (bound + extra) g input = some moved) ∧
      Took (currPlayer g) input heard moved := by
  induction bound generalizing g input with
  | zero => exact absurd enough (Nat.not_lt_zero _)
  | succ bound ih =>
    obtain ⟨asked, heard, loops, requested⟩ := getMoveLoop_requested sound outside input
    simp only [Nat.add_right_comm bound 1]
    cases requested with
    | @broken left rest answers broken =>
      exact ⟨⟨bytes (.notify .yourTurn :: heard), ioError, g, rest⟩, heard,
        fun depth extra => getPlayerMoveLoop_broken (loops depth), .broken (.broken answers broken)⟩
    | @move c₁ c₂ left answers =>
      obtain ⟨code, after, asked, sound', passes, stays⟩ := sound.called (apiGetMove c₁ c₂)
      by_cases accepted : Accepted code
      · refine ⟨⟨bytes (.notify .yourTurn :: heard),
          if code < 0 ∨ outside.written left then code else ioError, after, left⟩, heard,
          fun depth extra => getPlayerMoveLoop_accepted (loops depth) (asked depth) accepted,
          .moved (.moved answers) answers.move_lt sound' (passes accepted)⟩
      · have shorter := answers.move_lt
        obtain ⟨moved, later, again, took⟩ := ih sound' (show left.length < bound by omega)
        rw [stays accepted] at took
        refine ⟨_, _, fun depth extra => ?_, took.again code answers⟩
        rw [getPlayerMoveLoop_refused (loops depth) (asked depth) accepted, again]
        rfl

/-! ## Games -/

/-- What `parse_op_move` leaves of a buffer. -/
inductive Received (player : Fin 2) (buff : List Char) : List UInt8 × Int × Game → Prop
  /-- Nothing is written, and the game is over. -/
  | ended {code after msg} (ends : endMsg code = some msg) : Received player buff ([], code, after)
  /-- A move is reported, and the player is to move. -/
  | move {m after} (full : buff ≠ []) (sound : Sound after)
    (passes : currPlayer after = peer player) :
      Received player buff (reportEvent m, 0, after)

/-- `parse_op_move` reports a move or ends the game. -/
theorem parseOpMoveReporting_received {g : Game} (sound : Sound g) (buff : List Char) :
    ∃ result, (∀ depth, parseOpMoveReporting (depth + 1) g buff = some result) ∧
      Received (currPlayer g) buff result := by
  unfold parseOpMoveReporting
  by_cases short : buff.length < 5
  · simp only [if_pos short]
    exact ⟨_, fun _ => rfl, .ended rfl⟩
  by_cases unterminated : buff.getLast? ≠ some nul
  · simp only [if_neg short, if_pos unterminated]
    exact ⟨_, fun _ => rfl, .ended rfl⟩
  simp only [if_neg short, if_neg unterminated]
  cases parsed : parseMove (cString buff) with
  | none => exact ⟨_, fun _ => rfl, .ended rfl⟩
  | some m =>
    obtain ⟨code, after, asked, sound', passes, -⟩ := sound.called m
    simp only [asked, Option.map_some]
    by_cases negative : code < 0
    · obtain ⟨msg, ends⟩ := endMsg_negative negative
      simp only [if_pos negative]
      exact ⟨_, fun _ => rfl, .ended ends⟩
    · simp only [if_neg negative]
      refine ⟨_, fun _ => rfl, .move ?_ sound' (passes (accepted_of_nonneg (not_lt.mp negative)))⟩
      rintro rfl
      exact short (by decide)

section Loop

variable {g : Game} {depth turns : Nat} {outside : Outside} {pid : Fin 2} {input : List UInt8}
  {reads : List (List Char)}

/-- An own turn may end the game. -/
theorem gameLoop_taken_last {moved : Moved} {msg : EndMsg} (mine : currPlayer g = pid)
    (taken : getPlayerMove depth outside (turns + 1) g input = some moved)
    (ends : endMsg moved.code = some msg) :
    gameLoop depth outside pid (turns + 1) g input reads =
      some (moved.output ++ reportMsg msg.msg) := by
  rw [gameLoop, if_pos mine, taken, Option.bind_some, ends]

/-- Otherwise the loop goes on behind it. -/
theorem gameLoop_taken {moved : Moved} (mine : currPlayer g = pid)
    (taken : getPlayerMove depth outside (turns + 1) g input = some moved)
    (goes : endMsg moved.code = none) :
    gameLoop depth outside pid (turns + 1) g input reads =
      (gameLoop depth outside pid turns moved.game moved.input reads).map (moved.output ++ ·) := by
  rw [gameLoop, if_pos mine, taken, Option.bind_some, goes]

/-- A turn of the opponent may end the game. -/
theorem gameLoop_received_last {code : Int} {after : Game} {msg : EndMsg}
    (waiting : currPlayer g ≠ pid)
    (received : parseOpMoveReporting depth g ((reads.headD []).take buffSize) =
      some ([], code, after))
    (ends : endMsg code = some msg) :
    gameLoop depth outside pid (turns + 1) g input reads = some (reportMsg msg.msg) := by
  rw [gameLoop, if_neg waiting, received, Option.bind_some]
  dsimp only
  rw [ends]
  rfl

/-- Otherwise the loop goes on behind the report of the move. -/
theorem gameLoop_received {m : Move} {after : Game} (waiting : currPlayer g ≠ pid)
    (received : parseOpMoveReporting depth g ((reads.headD []).take buffSize) =
      some (reportEvent m, 0, after)) :
    gameLoop depth outside pid (turns + 1) g input reads =
      (gameLoop depth outside pid turns after input reads.tail).map (reportEvent m ++ ·) := by
  rw [gameLoop, if_neg waiting, received]
  rfl

end Loop

/-- The loop of `run_client` plays a game. -/
theorem gameLoop_play (outside : Outside) (pid : Fin 2) (bound : Nat) {g : Game} (sound : Sound g)
    {input : List UInt8} {reads : List (List Char)} (enough : input.length + reads.length < bound) :
    ∃ heard, (∀ depth extra,
        gameLoop (depth + 1) outside pid (bound + extra) g input reads = some (bytes heard)) ∧
      Play (currPlayer g = pid) input heard := by
  induction bound generalizing g input reads with
  | zero => exact absurd enough (Nat.not_lt_zero _)
  | succ bound ih =>
    simp only [Nat.add_right_comm bound 1]
    by_cases mine : currPlayer g = pid
    · obtain ⟨moved, heard, loops, took⟩ := getPlayerMoveLoop_took outside (bound + 1) sound
        (show input.length < bound + 1 by omega)
      have taken : ∀ depth extra,
          getPlayerMove (depth + 1) outside (bound + extra + 1) g input = some moved := by
        intro depth extra
        rw [← Nat.add_right_comm bound 1, getPlayerMove, loops]
        rfl
      rw [decide_eq_true mine]
      cases took with
      | @moved code after left turn shorter sound' passes =>
        cases ends : endMsg code with
        | some msg =>
          refine ⟨_, fun depth extra => ?_, .own turn (.ended _ msg.notice_ends)⟩
          rw [gameLoop_taken_last mine (taken depth extra) ends, msg.msg_bytes,
            ← List.flatMap_append]
          rfl
        | none =>
          obtain ⟨later, plays, play⟩ := @ih after sound' left reads (by omega)
          rw [passes, mine, decide_eq_false (peer_ne pid)] at play
          refine ⟨_, fun depth extra => ?_, .own turn play⟩
          rw [gameLoop_taken mine (taken depth extra) ends, plays, Option.map_some,
            ← List.flatMap_append]
          rfl
      | broken turn =>
        refine ⟨_, fun depth extra => ?_, .broken turn⟩
        rw [gameLoop_taken_last mine (taken depth extra) rfl, EndMsg.msg_bytes,
          ← List.flatMap_append]
        rfl
    · obtain ⟨result, asked, received⟩ :=
        parseOpMoveReporting_received sound ((reads.headD []).take buffSize)
      rw [decide_eq_false mine]
      cases received with
      | @ended code after msg ends =>
        refine ⟨[.notify msg.notice], fun depth extra => ?_, .ended _ msg.notice_ends⟩
        rw [gameLoop_received_last mine (asked depth) ends, msg.msg_bytes]
      | @move m after full sound' passes =>
        have rest : reads.tail.length < reads.length := by
          cases reads with
          | nil => exact absurd rfl full
          | cons buff reads => exact Nat.lt_succ_self _
        have turn : currPlayer after = pid := by
          rw [passes]
          rcases eq_or_peer (currPlayer g) pid with same | other
          · exact absurd same.symm mine
          · exact other.symm
        obtain ⟨later, plays, play⟩ := @ih after sound' input reads.tail (by omega)
        rw [decide_eq_true turn] at play
        refine ⟨_, fun depth extra => ?_, .opponent (movePair m) play⟩
        rw [gameLoop_received mine (asked depth), plays, Option.map_some, reportEvent_bytes,
          ← List.flatMap_append]
        rfl

/-- The start of a game is a message. -/
theorem start_bytes (player : Fin 2) :
    reportMsg .waitingForOp ++ reportMsg (if player.val = 0 then .foundOpWhite else .foundOpBlack) =
      bytes [.initGame (UInt8.ofNat player)] := by
  revert player
  decide

/-- Whatever the player sends, whatever the opponent sends, and wherever either stream ends,
`run_client` ends, and what it has written is read in one way: as the messages of a session. -/
theorem runClient_session (memory : Game) (player : Fin 2) (outside : Outside)
    (input : List UInt8) (reads : List (List Char)) :
    ∃ output heard,
      (∀ depth turns, 0 < depth → input.length + reads.length < turns →
        runClient depth turns outside memory player input reads = some output) ∧
      (∀ messages : List Message, messages.flatMap Message.encode = output ↔ messages = heard) ∧
      Session player input heard := by
  obtain ⟨later, plays, play⟩ := gameLoop_play outside player (input.length + reads.length + 1)
    (newGame_sound memory) (Nat.lt_succ_self _)
  rw [show currPlayer (newGame memory) = 0 from rfl, decide_eq_decide.mpr eq_comm] at play
  refine ⟨bytes (.initGame (UInt8.ofNat player) :: later), _, fun depth turns deep long => ?_,
    fun messages => Message.flatMap_encode_injective.eq_iff, .start play⟩
  obtain ⟨depth, rfl⟩ := Nat.exists_eq_add_of_le' deep
  obtain ⟨extra, rfl⟩ := Nat.exists_eq_add_of_le long
  rw [runClient, plays, start_bytes, Option.map_some, ← List.flatMap_append]
  rfl

/-- A player asks for the board and hangs up. -/
example : runClient 1 2 ⟨fun _ => .empty, fun _ => true⟩ blank 0 [0x02] [] =
    some ([0x04, 0x00, 0x07, 0x05, 0x05] ++
      [0x89, 0xab, 0xca, 0x98, 0xdd, 0xdd, 0xdd, 0xdd] ++ List.replicate 16 0x66 ++
      [0x55, 0x55, 0x55, 0x55, 0x01, 0x23, 0x42, 0x10] ++ [0x07, 0x04]) := by
  decide +kernel

end Chessh
