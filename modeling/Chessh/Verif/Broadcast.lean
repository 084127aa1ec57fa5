import Chessh.Verif.Encoding
import Chessh.Verif.Referee
import Chessh.Verif.Rejection

/-!
# What a client hears of its contest

The session of a client, with what the messages say: boards are those of the position, the listed
moves are the legal ones and pawn moves that do not name their promotion, moves of the opponent are
legal ones, and the game ends with the result of the contest. The form of a session does not depend
on what either side sends; what it says is right up to the first refused move that changes a piece.
-/

namespace Chessh

open Rules (Side Man Ply Position Contest Outcome Answer)
open Wire (Message BoardBytes MoveList Command Broken Notice)

/-! ## What is told -/

/-- The half-bytes of a board show the position: the owner above the type of a man, and the type of
an empty square. -/
structure Pictured (pos : Position) (sent : List UInt8) : Prop where
  man : ∀ (r c : Fin 8) (man : Man), pos.board (r, c) = some man →
    halfByte sent r c = 8 * (playerOf man.side).value + (typeOf man.kind).value
  free : ∀ r c : Fin 8, pos.board (r, c) = none → halfByte sent r c % 8 = PieceType.empty.value

open Classical in
/-- The moves, in order, that are legal with the promotion, and those with which a pawn steps to its
last row and the promotion is none. Of the latter only the rules of its steps are asked, so that
they are listed for a pinned pawn too, for which no promotion makes them legal. -/
noncomputable def toldMoves (c : Contest) (promotion : PieceType) : List Move :=
  (allMoves promotion).filter fun m => c.pos.Legal m.ply ∨ c.pos.Unnamed m.ply

/-- The move of a message from the opponent. -/
def readMove (buff : List Char) : Option Move :=
  if buff.length < 5 ∨ buff.getLast? ≠ some nul then none else parseMove (cString buff)

/-- The notification of a result. -/
def noticeOf : Outcome → Notice
  | .win .white => .whiteWins
  | .win .black => .blackWins
  | .draw => .forcedDraw
  | .goesOn | .offer => .internalServerError

/-- The answers to the requests in front of the bytes that are left. -/
inductive Told (outside : Outside) (c : Contest) : List UInt8 → List Message → List UInt8 → Prop
  /-- Nothing is asked for. -/
  | none (sent : List UInt8) : Told outside c sent [] sent
  /-- The board is that of the contest. -/
  | board {sent heard left} {board : BoardBytes} (pictured : Pictured c.pos board.val)
      (told : Told outside c sent heard left) :
      Told outside c (Command.getBoard.byte :: sent) (.boardInfo board :: heard) left
  /-- The moves are those of the contest. -/
  | moves {sent heard left} {moves : MoveList}
      (listed : moves.val = (toldMoves c (outside.promotion sent)).map movePair)
      (told : Told outside c sent heard left) :
      Told outside c (Command.getValidMoves.byte :: sent) (.moveInfo moves :: heard) left

/-- What a client that plays for a side hears of a contest: beside the bytes that it sends and what
the reads from the opponent return. -/
inductive Umpired (outside : Outside) (pid : Fin 2) :
    Contest → List UInt8 → List (List Char) → List Message → Prop
  /-- The move of the client is legal, it goes through to the opponent and the contest goes on. -/
  | played {c sent reads heard c₁ c₂ left later} (side : c.pos.turn = sideOf pid)
      (told : Told outside c sent heard (cmdMakeMove :: c₁ :: c₂ :: left))
      (legal : c.pos.Legal (apiGetMove c₁ c₂).ply)
      (goes : ¬ (c.play (apiGetMove c₁ c₂).ply).outcome.Over)
      (through : outside.written left = true)
      (play : Umpired outside pid (c.play (apiGetMove c₁ c₂).ply) left reads later) :
      Umpired outside pid c sent reads (.notify .yourTurn :: (heard ++ later))
  /-- It does not go through. -/
  | unsent {c sent reads heard c₁ c₂ left} (side : c.pos.turn = sideOf pid)
      (told : Told outside c sent heard (cmdMakeMove :: c₁ :: c₂ :: left))
      (legal : c.pos.Legal (apiGetMove c₁ c₂).ply)
      (goes : ¬ (c.play (apiGetMove c₁ c₂).ply).outcome.Over) (cut : outside.written left = false) :
      Umpired outside pid c sent reads
        (.notify .yourTurn :: (heard ++ [.notify .internalServerError]))
  /-- It ends the contest. -/
  | decided {c sent reads heard c₁ c₂ left} (side : c.pos.turn = sideOf pid)
      (told : Told outside c sent heard (cmdMakeMove :: c₁ :: c₂ :: left))
      (legal : c.pos.Legal (apiGetMove c₁ c₂).ply)
      (over_ : (c.play (apiGetMove c₁ c₂).ply).outcome.Over) :
      Umpired outside pid c sent reads (.notify .yourTurn ::
        (heard ++ [.notify (noticeOf (c.play (apiGetMove c₁ c₂).ply).outcome)]))
  /-- It is illegal, and the client is told so and asked again. -/
  | illegal {c sent reads heard c₁ c₂ left later} (side : c.pos.turn = sideOf pid)
      (told : Told outside c sent heard (cmdMakeMove :: c₁ :: c₂ :: left))
      (answer : c.answer (apiGetMove c₁ c₂).ply = .illegal)
      (play : Umpired outside pid c left reads later) :
      Umpired outside pid c sent reads
        (.notify .yourTurn :: (heard ++ .notify .illegalMove :: later))
  /-- It does not say what its pawn becomes, and the client is asked again. -/
  | unnamed {c sent reads heard c₁ c₂ left later} (side : c.pos.turn = sideOf pid)
      (told : Told outside c sent heard (cmdMakeMove :: c₁ :: c₂ :: left))
      (answer : c.answer (apiGetMove c₁ c₂).ply = .unnamed)
      (play : Umpired outside pid c left reads later) :
      Umpired outside pid c sent reads (.notify .yourTurn :: (heard ++ later))
  /-- It is illegal and changes a piece of the game that stands for the contest: only the form of
  the session is kept. -/
  | spoiled {c g sent reads heard c₁ c₂ left later} (side : c.pos.turn = sideOf pid)
      (told : Told outside c sent heard (cmdMakeMove :: c₁ :: c₂ :: left))
      (answer : c.answer (apiGetMove c₁ c₂).ply = .illegal) (stands : Stands g c)
      (retypes : Retypes g (apiGetMove c₁ c₂)) (play : Wire.Play true left later) :
      Umpired outside pid c sent reads
        (.notify .yourTurn :: (heard ++ .notify .illegalMove :: later))
  /-- The client breaks its turn off. -/
  | broken {c sent reads heard left} (side : c.pos.turn = sideOf pid)
      (told : Told outside c sent heard left) (broken : Broken left) :
      Umpired outside pid c sent reads
        (.notify .yourTurn :: (heard ++ [.notify .internalServerError]))
  /-- The move of the opponent is legal, and the contest goes on. -/
  | opponent {c sent reads m later} (side : c.pos.turn ≠ sideOf pid)
      (read : readMove ((reads.headD []).take buffSize) = some m) (legal : c.pos.Legal m.ply)
      (goes : ¬ (c.play m.ply).outcome.Over)
      (play : Umpired outside pid (c.play m.ply) sent reads.tail later) :
      Umpired outside pid c sent reads (.makeMove (movePair m) :: later)
  /-- It ends the contest. -/
  | lost {c sent reads m} (side : c.pos.turn ≠ sideOf pid)
      (read : readMove ((reads.headD []).take buffSize) = some m) (legal : c.pos.Legal m.ply)
      (over_ : (c.play m.ply).outcome.Over) :
      Umpired outside pid c sent reads [.notify (noticeOf (c.play m.ply).outcome)]
  /-- The opponent is gone, or has sent something else than a legal move. -/
  | cut {c sent reads} (side : c.pos.turn ≠ sideOf pid)
      (strange : ∀ m, readMove ((reads.headD []).take buffSize) = some m → ¬ c.pos.Legal m.ply) :
      Umpired outside pid c sent reads [.notify .internalServerError]

/-! ## Codes -/

section Codes

variable {g after : Game} {c : Contest} {m : Move} {code : Int}

/-- Only the answer to an illegal move has its code. -/
theorem answerCode_illegal (answer : Answer) :
    answerCode answer = illegalMove ↔ answer = .illegal := by
  cases answer with
  | illegal => exact iff_of_true rfl rfl
  | unnamed => exact iff_of_false (by decide) nofun
  | played outcome => exact iff_of_false (outcomeCode_accepted outcome).1 nofun

/-- Only the answer to a move that says too little has its code. -/
theorem answerCode_missing (answer : Answer) :
    answerCode answer = missingPromotion ↔ answer = .unnamed := by
  cases answer with
  | illegal => exact iff_of_false (by decide) nofun
  | unnamed => exact iff_of_true rfl rfl
  | played outcome => exact iff_of_false (outcomeCode_accepted outcome).2 nofun

/-- A contest that is over is reported with its result. -/
theorem endMsg_over {outcome : Outcome} (over_ : outcome.Over) :
    ∃ msg, endMsg (outcomeCode outcome) = some msg ∧ msg.notice = noticeOf outcome := by
  cases outcome with
  | goesOn => exact absurd rfl over_.1
  | offer => exact absurd rfl over_.2
  | draw => exact ⟨_, rfl, rfl⟩
  | win side => cases side <;> exact ⟨_, rfl, rfl⟩

/-- A move that is played is answered with how the contest stands. -/
theorem Stands.played_code (stands : Stands g c) (returns : Returns g m code after)
    (accepted : Accepted code) : c.pos.Legal m.ply ∧ code = outcomeCode (c.play m.ply).outcome := by
  have legal := (stands.accepted_iff returns).mp accepted
  have told := (stands.made returns).1
  unfold Contest.answer at told
  rw [if_pos legal] at told
  exact ⟨legal, told⟩

/-- A move that is not illegal is legal or says too little. -/
theorem answer_illegal :
    c.answer m.ply = .illegal ↔ ¬ (c.pos.Legal m.ply ∨ c.pos.Unnamed m.ply) := by
  unfold Contest.answer
  by_cases legal : c.pos.Legal m.ply
  · rw [if_pos legal]
    exact iff_of_false nofun (not_not.mpr (Or.inl legal))
  rw [if_neg legal]
  by_cases unnamed : c.pos.Unnamed m.ply
  · rw [if_pos unnamed]
    exact iff_of_false nofun (not_not.mpr (Or.inr unnamed))
  · rw [if_neg unnamed]
    exact iff_of_true rfl (not_or.mpr ⟨legal, unnamed⟩)

/-- The listed moves are those of the contest. -/
theorem Stands.validMoves_eq (stands : Stands g c) (promotion : PieceType) :
    validMoves g promotion = toldMoves c promotion := by
  unfold validMoves toldMoves
  refine List.filter_congr fun m _ => ?_
  have told := (stands.made (stands.tracks.sound.played m)).1
  rw [told]
  refine decide_eq_decide.mpr ?_
  rw [ne_eq, answerCode_illegal, answer_illegal, not_not]

end Codes

/-! ## Boards -/

/-- No owner that the memory holds on an odd column of the middle rows spills over. -/
def Unspilled (memory : Game) : Prop :=
  ∀ r c : Fin 8, 2 ≤ r.val → r.val < 6 → c.val % 2 = 1 →
    (memory.board r c).player.value / 2 % 16 = 0

section Boards

variable {memory g : Game} {c : Contest} {calls : List (Move × Int)}

/-- In such memory every board of a run is sent faithfully. -/
theorem Run.faithful (run : Run (newGame memory) calls g) (clean : Unspilled memory) :
    Faithful g := by
  refine (faithful_iff run.proper).mpr fun r j => ?_
  have silent : spill (g.get r (2 * j + 1)) = 0 := by
    rw [spill_eq (run.proper _ _)]
    rcases run.signed (newGame_sound memory) r (2 * j + 1) with same | known
    · have start :
          ((newGame memory).get r ((⟨2 * j + 1, by omega⟩ : Fin 8) : Int)).player.value / 2 % 16 =
            0 := by
        rw [newGame_get]
        dsimp only
        split
        · rfl
        split
        · rfl
        · exact clean r _ (by omega) (by omega) (by dsimp only; omega)
      rw [same]
      exact start
    · have := known.value
      omega
  rw [silent, Nat.or_zero]

/-- A faithful board is that of the contest. -/
theorem Stands.pictured (stands : Stands g c) (faithful : Faithful g) :
    Pictured c.pos (apiSendBoard g) where
  man := by
    intro r col man there
    rw [stands.tracks.get] at there
    obtain ⟨type, owner⟩ := man_eq_some.mp there
    have full : (g.get r col).type ≠ .empty := by
      rw [type]
      cases man.kind <;> decide
    have high := faithful.owner r col full
    have low := faithful.type r col
    rw [owner] at high
    rw [type] at low
    omega
  free := by
    intro r col nobody
    rw [faithful.type, (stands.tracks.free _ _).mp nobody]

end Boards

/-! ## Turns -/

section Turns

variable {memory g : Game} {c : Contest} {calls : List (Move × Int)} {outside : Outside}

/-- What is told of a contest has the form of answers. -/
theorem Told.answers {sent left : List UInt8} {heard : List Message}
    (told : Told outside c sent heard left) : Wire.Answers sent heard left := by
  induction told with
  | none => exact .none _
  | board _ _ ih => exact .board _ ih
  | moves _ _ ih => exact .moves _ ih

/-- What `get_move` leaves when it has told what it was asked. -/
inductive Answered (outside : Outside) (c : Contest) (sent : List UInt8) (heard : List Message) :
    Asked → Prop
  /-- A move follows. -/
  | move {c₁ c₂ left} (told : Told outside c sent heard (cmdMakeMove :: c₁ :: c₂ :: left)) :
      Answered outside c sent heard ⟨bytes heard, some (apiText c₁ c₂), left⟩
  /-- Nothing follows that is a command of a turn. -/
  | broken {left rest} (told : Told outside c sent heard left) (broken : Broken left) :
      Answered outside c sent heard ⟨bytes heard, none, rest⟩

/-- The board is told in front. -/
theorem Answered.board {sent : List UInt8} {heard : List Message} {asked : Asked}
    (answered : Answered outside c sent heard asked) (pictured : Pictured c.pos (apiSendBoard g)) :
    Answered outside c (cmdGetBoard :: sent)
      (.boardInfo ⟨apiSendBoard g, apiSendBoard_length g⟩ :: heard)
      (asked.behind (cmdBoardInfo :: apiSendBoard g)) := by
  cases answered with
  | move told => exact .move (.board pictured told)
  | broken told broken => exact .broken (.board pictured told) broken

/-- The moves are told in front. -/
theorem Answered.moves {sent : List UInt8} {heard : List Message} {asked : Asked}
    (answered : Answered outside c sent heard asked) {list : MoveList}
    (listed : list.val = (toldMoves c (outside.promotion sent)).map movePair) :
    Answered outside c (cmdGetValidMoves :: sent) (.moveInfo list :: heard)
      (asked.behind (Message.encode (.moveInfo list))) := by
  cases answered with
  | move told => exact .move (.moves listed told)
  | broken told broken => exact .broken (.moves listed told) broken

/-- The list that is sent is the message of the moves. -/
theorem moveList_bytes {moves : List Move} (fits : moves.length ≤ 512) :
    ∃ list : MoveList, list.val = moves.map movePair ∧
      cmdMoveInfo :: (putword (UInt16.ofNat moves.length) ++ moves.flatMap writeMove) =
        Message.encode (.moveInfo list) := by
  have short : (moves.map movePair).length < 65536 := by
    rw [List.length_map]
    omega
  refine ⟨⟨moves.map movePair, short⟩, rfl, ?_⟩
  rw [putword_eq (by omega), Message.encode, Message.arguments, List.length_map, List.flatMap_map]
  rfl

/-- The loop of `get_move` tells what the contest is. -/
theorem getMoveLoop_answered (run : Run (newGame memory) calls g) (clean : Unspilled memory)
    (stands : Stands g c) (outside : Outside) (input : List UInt8) :
    ∃ asked heard, (∀ depth, getMoveLoop (depth + 1) outside g input = some asked) ∧
      Answered outside c input heard asked := by
  induction input with
  | nil => exact ⟨_, [], fun _ => rfl, .broken (.none []) .stopped⟩
  | cons cmd rest ih =>
    obtain ⟨asked, heard, loops, answered⟩ := ih
    by_cases move : cmd = cmdMakeMove
    · subst move
      cases rest with
      | nil => exact ⟨_, [], fun _ => rfl, .broken (.none _) (.cut (Nat.zero_lt_succ _))⟩
      | cons c₁ rest =>
        cases rest with
        | nil => exact ⟨_, [], fun _ => rfl, .broken (.none _) (.cut (Nat.lt_succ_self _))⟩
        | cons c₂ left => exact ⟨_, [], fun _ => rfl, .move (.none _)⟩
    by_cases board : cmd = cmdGetBoard
    · subst board
      refine ⟨_, _, fun depth => ?_, answered.board (stands.pictured (run.faithful clean))⟩
      unfold getMoveLoop
      rw [if_neg move, if_pos rfl, loops]
      rfl
    by_cases moves : cmd = cmdGetValidMoves
    · subst moves
      have few := run.validPairs_few
      have length := @validMoves_length g (outside.promotion rest) stands.tracks.sound
      obtain ⟨list, listed, same⟩ :=
        @moveList_bytes (validMoves g (outside.promotion rest)) (by omega)
      rw [stands.validMoves_eq] at listed
      refine ⟨_, _, fun depth => ?_, answered.moves listed⟩
      unfold getMoveLoop
      rw [if_neg move, if_neg board, if_pos rfl, run.countValidMoves_eq,
        Option.bind_some, loops, same]
      rfl
    · refine ⟨⟨[], none, rest⟩, [], fun depth => ?_, .broken (.none _) (.stray move board moves)⟩
      unfold getMoveLoop
      rw [if_neg move, if_neg board, if_neg moves]

end Turns

/-! ## Games -/

section Games

variable {memory g after : Game} {c : Contest} {calls : List (Move × Int)} {outside : Outside}
  {pid : Fin 2} {depth turns : Nat} {input output rest : List UInt8} {reads : List (List Char)}
  {c₁ c₂ : UInt8} {code : Int}

/-- A refused move puts the loop of `run_client` where it would be with the rest of the input. -/
theorem gameLoop_refused (mine : currPlayer g = pid) (mine' : currPlayer after = pid)
    (loops : getMoveLoop depth outside g input = some ⟨output, some (apiText c₁ c₂), rest⟩)
    (asked : makeMove depth g (apiGetMove c₁ c₂) = some (code, after)) (refused : ¬ Accepted code)
    (same : getPlayerMoveLoop depth outside turns after rest =
      getPlayerMoveLoop depth outside (turns + 1) after rest) :
    gameLoop depth outside pid (turns + 1) g input reads =
      (gameLoop depth outside pid (turns + 1) after rest reads).map
        (notify notifyYourTurn ++ output ++ bytes (refusal code) ++ ·) := by
  rw [gameLoop, gameLoop, if_pos mine, if_pos mine', getPlayerMove, getPlayerMove,
    getPlayerMoveLoop_refused loops asked refused, same]
  cases getPlayerMoveLoop depth outside (turns + 1) after rest with
  | none => rfl
  | some moved =>
    have silent : reportMsg .waitingForMove = [] := rfl
    simp only [Option.map_some, Option.bind_some, Moved.behind]
    cases endMsg moved.code with
    | some msg => simp [silent]
    | none =>
      dsimp only
      rw [Option.map_map]
      refine congrArg (fun f => Option.map f _) (funext fun later => ?_)
      simp [silent]

/-- What `parse_op_move` makes of a buffer that holds a move. -/
theorem parseOpMoveReporting_some {buff : List Char} {m : Move} (read : readMove buff = some m)
    (asked : makeMove depth g m = some (code, after)) :
    parseOpMoveReporting depth g buff =
      some (if code < 0 then ([], code, after) else (reportEvent m, 0, after)) := by
  unfold readMove at read
  split at read
  · cases read
  · rename_i whole
    obtain ⟨long, ends⟩ := not_or.mp whole
    unfold parseOpMoveReporting
    rw [if_neg long, if_neg ends, read]
    dsimp only
    rw [asked]
    rfl

/-- What it makes of any other. -/
theorem parseOpMoveReporting_none {buff : List Char} (read : readMove buff = none) :
    ∃ code msg, (∀ depth, parseOpMoveReporting depth g buff = some ([], code, g)) ∧
      endMsg code = some msg ∧ msg.notice = .internalServerError := by
  unfold readMove at read
  unfold parseOpMoveReporting
  by_cases short : buff.length < 5
  · simp only [if_pos short]
    exact ⟨_, _, fun _ => rfl, rfl, rfl⟩
  by_cases ends : buff.getLast? ≠ some nul
  · simp only [if_neg short, if_pos ends]
    exact ⟨_, _, fun _ => rfl, rfl, rfl⟩
  rw [if_neg (not_or.mpr ⟨short, ends⟩)] at read
  simp only [if_neg short, if_neg ends, read]
  exact ⟨_, _, fun _ => rfl, rfl, rfl⟩

/-- A buffer that holds a move was read. -/
theorem readMove_reads {m : Move} (read : readMove ((reads.headD []).take buffSize) = some m) :
    reads.tail.length < reads.length := by
  cases reads with
  | nil => cases read
  | cons buff reads => exact Nat.lt_succ_self _

/-- A code that refuses a move ends a game in an unknown error. -/
theorem endMsg_refused (refused : ¬ Accepted code) : endMsg code = some .unknownError := by
  have rejected : code = illegalMove ∨ code = missingPromotion := by
    by_contra other
    exact refused (not_or.mp other)
  rcases rejected with rfl | rfl <;> rfl

variable {bound : Nat} {left : List UInt8} {heard later : List Message} {m : Move} {msg : EndMsg}

/-- What the loop of `run_client` writes from a game on, with as many turns as the bound or more. -/
def Hears (outside : Outside) (pid : Fin 2) (bound : Nat) (g : Game) (input : List UInt8)
    (reads : List (List Char)) (heard : List Message) : Prop :=
  ∀ depth extra, gameLoop (depth + 1) outside pid (bound + extra) g input reads = some (bytes heard)

/-- A turn may be broken off. -/
theorem Hears.broken (mine : currPlayer g = pid)
    (loops : ∀ depth, getMoveLoop (depth + 1) outside g input = some ⟨bytes heard, none, rest⟩) :
    Hears outside pid (bound + 1) g input reads
      (.notify .yourTurn :: (heard ++ [.notify .internalServerError])) := by
  intro depth extra
  have taken : getPlayerMove (depth + 1) outside (bound + extra + 1) g input =
      some ⟨bytes (.notify .yourTurn :: heard), ioError, g, rest⟩ := by
    rw [getPlayerMove, getPlayerMoveLoop_broken (loops depth)]
    rfl
  rw [Nat.add_right_comm, gameLoop_taken_last mine taken rfl, EndMsg.msg_bytes,
    ← List.flatMap_append]
  rfl

/-- What is left of a turn with a move that is made. -/
theorem getPlayerMove_accepted
    (loops : ∀ depth, getMoveLoop (depth + 1) outside g input =
      some ⟨bytes heard, some (apiText c₁ c₂), left⟩)
    (asked : ∀ depth, makeMove (depth + 1) g (apiGetMove c₁ c₂) = some (code, after))
    (accepted : Accepted code) :
    getPlayerMove (depth + 1) outside (turns + 1) g input =
      some ⟨bytes (.notify .yourTurn :: heard),
        if code < 0 ∨ outside.written left then code else ioError, after, left⟩ := by
  rw [getPlayerMove, getPlayerMoveLoop_accepted (loops depth) (asked depth) accepted]
  rfl

/-- A move that is made may end the game, and so may a write that fails. -/
theorem Hears.stopped (mine : currPlayer g = pid)
    (loops : ∀ depth, getMoveLoop (depth + 1) outside g input =
      some ⟨bytes heard, some (apiText c₁ c₂), left⟩)
    (asked : ∀ depth, makeMove (depth + 1) g (apiGetMove c₁ c₂) = some (code, after))
    (accepted : Accepted code)
    (ends : endMsg (if code < 0 ∨ outside.written left then code else ioError) = some msg) :
    Hears outside pid (bound + 1) g input reads
      (.notify .yourTurn :: (heard ++ [.notify msg.notice])) := by
  intro depth extra
  rw [Nat.add_right_comm, gameLoop_taken_last mine
    (getPlayerMove_accepted loops asked accepted) ends,
    msg.msg_bytes, ← List.flatMap_append]
  rfl

/-- Otherwise the opponent is to move. -/
theorem Hears.passed (mine : currPlayer g = pid)
    (loops : ∀ depth, getMoveLoop (depth + 1) outside g input =
      some ⟨bytes heard, some (apiText c₁ c₂), left⟩)
    (asked : ∀ depth, makeMove (depth + 1) g (apiGetMove c₁ c₂) = some (code, after))
    (nonneg : 0 ≤ code) (through : outside.written left = true)
    (hears : Hears outside pid bound after left reads later) :
    Hears outside pid (bound + 1) g input reads (.notify .yourTurn :: (heard ++ later)) := by
  intro depth extra
  have taken := @getPlayerMove_accepted g after outside depth (bound + extra) input c₁ c₂ code left
    heard loops asked (accepted_of_nonneg nonneg)
  rw [if_pos (Or.inr through)] at taken
  rw [Nat.add_right_comm, gameLoop_taken mine taken (endMsg_nonneg nonneg), hears, Option.map_some,
    ← List.flatMap_append]
  rfl

/-- A move that is refused starts the turn again. -/
theorem Hears.refused (sound : Sound after) (mine : currPlayer g = pid)
    (mine' : currPlayer after = pid) (loops : ∀ depth, getMoveLoop (depth + 1) outside g input =
      some ⟨bytes heard, some (apiText c₁ c₂), left⟩)
    (asked : ∀ depth, makeMove (depth + 1) g (apiGetMove c₁ c₂) = some (code, after))
    (refused : ¬ Accepted code) (shorter : left.length < bound)
    (hears : Hears outside pid bound after left reads later) :
    Hears outside pid (bound + 1) g input reads
      (.notify .yourTurn :: (heard ++ (refusal code ++ later))) := by
  intro depth extra
  obtain ⟨moved, -, takes, -⟩ := getPlayerMoveLoop_took outside bound sound shorter
  have same := (takes depth extra).trans (takes depth (extra + 1)).symm
  rw [Nat.add_right_comm, gameLoop_refused mine mine' (loops depth) (asked depth) refused same,
    Nat.add_assoc bound extra 1, hears, Option.map_some]
  simp only [bytes, List.flatMap_cons, List.flatMap_append, List.append_assoc]
  rfl

/-- A move of the opponent is shown. -/
theorem Hears.received (waiting : currPlayer g ≠ pid)
    (read : readMove ((reads.headD []).take buffSize) = some m)
    (asked : ∀ depth, makeMove (depth + 1) g m = some (code, after)) (nonneg : 0 ≤ code)
    (hears : Hears outside pid bound after input reads.tail later) :
    Hears outside pid (bound + 1) g input reads (.makeMove (movePair m) :: later) := by
  intro depth extra
  have received := parseOpMoveReporting_some read (asked depth)
  rw [if_neg (not_lt.mpr nonneg)] at received
  rw [Nat.add_right_comm, gameLoop_received waiting received, hears, Option.map_some,
    reportEvent_bytes, ← List.flatMap_append]
  rfl

/-- It may end the game. -/
theorem Hears.lost (waiting : currPlayer g ≠ pid)
    (read : readMove ((reads.headD []).take buffSize) = some m)
    (asked : ∀ depth, makeMove (depth + 1) g m = some (code, after)) (negative : code < 0)
    (ends : endMsg code = some msg) :
    Hears outside pid (bound + 1) g input reads [.notify msg.notice] := by
  intro depth extra
  have received := parseOpMoveReporting_some read (asked depth)
  rw [if_pos negative] at received
  rw [Nat.add_right_comm, gameLoop_received_last waiting received ends, msg.msg_bytes]

/-- What holds no move ends it as well. -/
theorem Hears.cut (waiting : currPlayer g ≠ pid)
    (read : readMove ((reads.headD []).take buffSize) = none) :
    Hears outside pid (bound + 1) g input reads [.notify .internalServerError] := by
  intro depth extra
  obtain ⟨code, msg, received, ends, notice⟩ := @parseOpMoveReporting_none g _ read
  rw [Nat.add_right_comm, gameLoop_received_last waiting (received _) ends, msg.msg_bytes, notice]

/-- What the loop of `run_client` is to do, from any game of a run, with fewer bytes and reads left
than the bound. -/
def Broadcasts (memory : Game) (outside : Outside) (pid : Fin 2) (bound : Nat) : Prop :=
  ∀ (g : Game) (c : Contest) (calls : List (Move × Int)) (input : List UInt8)
    (reads : List (List Char)),
    Run (newGame memory) calls g → Stands g c → input.length + reads.length < bound →
    ∃ heard, Hears outside pid bound g input reads heard ∧ Umpired outside pid c input reads heard

/-- A legal move is sent to the opponent, or ends the game. -/
theorem Broadcasts.accepted (broadcasts : Broadcasts memory outside pid bound)
    (enough : left.length + reads.length < bound) (run : Run (newGame memory) calls g)
    (stands : Stands g c) (mine : currPlayer g = pid)
    (loops : ∀ depth, getMoveLoop (depth + 1) outside g input =
      some ⟨bytes heard, some (apiText c₁ c₂), left⟩)
    (told : Told outside c input heard (cmdMakeMove :: c₁ :: c₂ :: left))
    (asked : ∀ depth, makeMove (depth + 1) g (apiGetMove c₁ c₂) = some (code, after))
    (accepted : Accepted code) :
    ∃ heard, Hears outside pid (bound + 1) g input reads heard ∧
      Umpired outside pid c input reads heard := by
  have side := stands.turn_iff.mp mine
  have returns : Returns g (apiGetMove c₁ c₂) code after := .of_asked asked
  obtain ⟨legal, same⟩ := stands.played_code returns accepted
  by_cases negative : code < 0
  · have over_ : (c.play (apiGetMove c₁ c₂).ply).outcome.Over := by
      rw [← outcomeCode_neg, ← same]
      exact negative
    obtain ⟨msg, ends, notice⟩ := endMsg_over over_
    have stopped : endMsg (if code < 0 ∨ outside.written left then code else ioError) =
      some msg := by
      rw [if_pos (Or.inl negative), same]
      exact ends
    refine ⟨_, .stopped mine loops asked accepted stopped, ?_⟩
    rw [notice]
    exact .decided side told legal over_
  have nonneg := not_lt.mp negative
  have goes := ((stands.nonneg_iff returns).mp nonneg).2
  cases through : outside.written left with
  | false =>
    have stopped : endMsg (if code < 0 ∨ outside.written left then code else ioError) =
        some .ioError := by
      rw [through, if_neg (by simpa using negative)]
      rfl
    exact ⟨_, .stopped mine loops asked accepted stopped, .unsent side told legal goes through⟩
  | true =>
    obtain ⟨later, hears, play⟩ := broadcasts after _ _ left reads (run.step returns)
      ((stands.made returns).2 nonneg) enough
    exact ⟨_, .passed mine loops asked nonneg through hears, .played side told legal
      goes through play⟩

/-- A move that is refused starts the turn again. -/
theorem Broadcasts.refused (broadcasts : Broadcasts memory outside pid bound)
    (enough : left.length + reads.length < bound) (run : Run (newGame memory) calls g)
    (stands : Stands g c) (mine : currPlayer g = pid)
    (loops : ∀ depth, getMoveLoop (depth + 1) outside g input =
      some ⟨bytes heard, some (apiText c₁ c₂), left⟩)
    (told : Told outside c input heard (cmdMakeMove :: c₁ :: c₂ :: left))
    (asked : ∀ depth, makeMove (depth + 1) g (apiGetMove c₁ c₂) = some (code, after))
    (refused : ¬ Accepted code) :
    ∃ heard, Hears outside pid (bound + 1) g input reads heard ∧
      Umpired outside pid c input reads heard := by
  have side := stands.turn_iff.mp mine
  have returns : Returns g (apiGetMove c₁ c₂) code after := .of_asked asked
  have sound := stands.tracks.sound
  have sound' := (returns.made sound).sound sound
  have mine' : currPlayer after = pid :=
    (currPlayer_congr (returns.no_turn sound refused).duration).trans mine
  have again : ∀ {later : List Message}, Hears outside pid bound after left reads later →
      Hears outside pid (bound + 1) g input reads
        (.notify .yourTurn :: (heard ++ (refusal code ++ later))) :=
    Hears.refused sound' mine mine' loops asked refused (by omega)
  have answered := (stands.made returns).1
  by_cases illegal : code = illegalMove
  · have answer : c.answer (apiGetMove c₁ c₂).ply = .illegal :=
      (answerCode_illegal _).mp (answered.symm.trans illegal)
    have told_ : refusal code = [.notify .illegalMove] := if_pos illegal
    rw [told_] at again
    by_cases retypes : Retypes g (apiGetMove c₁ c₂)
    · obtain ⟨later, plays, play⟩ := gameLoop_play outside pid bound sound' enough
      rw [decide_eq_true mine'] at play
      exact ⟨_, again plays, .spoiled side told answer stands retypes play⟩
    · obtain ⟨later, hears, play⟩ := broadcasts after c _ left reads (run.step returns)
        (stands.refused returns refused retypes) enough
      exact ⟨_, again hears, .illegal side told answer play⟩
  · have missing : code = missingPromotion := by
      by_contra other
      exact refused ⟨illegal, other⟩
    have told_ : refusal code = [] := if_neg illegal
    rw [told_] at again
    rw [missing] at returns answered
    have kept : after = g := (returns.missing sound).1
    have answer : c.answer (apiGetMove c₁ c₂).ply = .unnamed :=
      (answerCode_missing _).mp answered.symm
    obtain ⟨later, hears, play⟩ := broadcasts g c _ left reads run stands enough
    rw [kept] at again
    exact ⟨_, again hears, .unnamed side told answer play⟩

/-- The move of the opponent is shown, or the game is over. -/
theorem Broadcasts.received (broadcasts : Broadcasts memory outside pid bound)
    (enough : input.length + reads.length < bound + 1) (run : Run (newGame memory) calls g)
    (stands : Stands g c) (waiting : currPlayer g ≠ pid) :
    ∃ heard, Hears outside pid (bound + 1) g input reads heard ∧
      Umpired outside pid c input reads heard := by
  have side : c.pos.turn ≠ sideOf pid := mt stands.turn_iff.mpr waiting
  cases read : readMove ((reads.headD []).take buffSize) with
  | none =>
    refine ⟨_, .cut waiting read, .cut side fun m here => ?_⟩
    rw [read] at here
    cases here
  | some m =>
    obtain ⟨code, after, asked, made⟩ := makeMove_made stands.tracks.sound m
    have returns : Returns g m code after := .of_asked asked
    by_cases accepted : Accepted code
    · obtain ⟨legal, same⟩ := stands.played_code returns accepted
      by_cases negative : code < 0
      · have over_ : (c.play m.ply).outcome.Over := by
          rw [← outcomeCode_neg, ← same]
          exact negative
        obtain ⟨msg, ends, notice⟩ := endMsg_over over_
        refine ⟨_, .lost waiting read asked negative (same ▸ ends), ?_⟩
        rw [notice]
        exact .lost side read legal over_
      · have nonneg := not_lt.mp negative
        have goes := ((stands.nonneg_iff returns).mp nonneg).2
        have shorter := readMove_reads read
        obtain ⟨later, hears, play⟩ := broadcasts after _ _ input reads.tail (run.step returns)
          ((stands.made returns).2 nonneg) (by omega)
        exact ⟨_, .received waiting read asked nonneg hears, .opponent side read legal goes play⟩
    · have negative : code < 0 := by
        by_contra nonneg
        exact accepted (accepted_of_nonneg (not_lt.mp nonneg))
      refine ⟨_, .lost waiting read asked negative (endMsg_refused accepted),
        .cut side fun m' here legal => ?_⟩
      obtain rfl : m' = m := Option.some.inj (here.symm.trans read)
      exact accepted ((stands.accepted_iff returns).mpr legal)

/-- The loop of `run_client` follows the contest that its game stands for. -/
theorem gameLoop_broadcasts (clean : Unspilled memory) (outside : Outside) (pid : Fin 2)
    (bound : Nat) :
    Broadcasts memory outside pid bound := by
  induction bound with
  | zero => exact fun g c calls input reads _ _ enough => absurd enough (Nat.not_lt_zero _)
  | succ bound ih =>
    intro g c calls input reads run stands enough
    by_cases mine : currPlayer g = pid
    · have side := stands.turn_iff.mp mine
      obtain ⟨asked, heard, loops, answered⟩ := getMoveLoop_answered run clean stands outside input
      cases answered with
      | broken told broken => exact ⟨_, .broken mine loops, .broken side told broken⟩
      | @move c₁ c₂ left told =>
        have shorter := told.answers.move_lt
        have fewer : left.length + reads.length < bound := by omega
        obtain ⟨code, after, asked, -⟩ := makeMove_made stands.tracks.sound (apiGetMove c₁ c₂)
        by_cases accepted : Accepted code
        · exact ih.accepted fewer run stands mine loops told asked accepted
        · exact ih.refused fewer run stands mine loops told asked accepted
    · exact ih.received enough run stands mine

end Games

/-- What the loop writes from a new game on, `run_client` writes behind the start of the game. -/
theorem Hears.runs {memory : Game} {outside : Outside} {player : Fin 2} {input : List UInt8}
    {reads : List (List Char)} {heard : List Message}
    (hears : Hears outside player (input.length + reads.length + 1)
    (newGame memory) input reads heard)
    {depth turns : Nat} (deep : 0 < depth) (long : input.length + reads.length < turns) :
    runClient depth turns outside memory player input reads =
      some (bytes (.initGame (UInt8.ofNat player) :: heard)) := by
  obtain ⟨depth, rfl⟩ := Nat.exists_eq_add_of_le' deep
  obtain ⟨extra, rfl⟩ := Nat.exists_eq_add_of_le long
  rw [runClient, hears, start_bytes, Option.map_some, ← List.flatMap_append]
  rfl

/-- In memory that spills nothing, whatever the player sends, whatever the opponent sends, and
wherever either stream ends: `run_client` ends, and the messages it has written are those of a
contest that it follows as an umpire. -/
theorem runClient_umpired {memory : Game} (clean : Unspilled memory) (player : Fin 2)
    (outside : Outside) (input : List UInt8) (reads : List (List Char)) :
    ∃ heard, (∀ depth turns, 0 < depth → input.length + reads.length < turns →
        runClient depth turns outside memory player input reads =
          some (bytes (.initGame (UInt8.ofNat player) :: heard))) ∧
      Umpired outside player Contest.start input reads heard := by
  obtain ⟨heard, plays, play⟩ := gameLoop_broadcasts clean outside player
    (input.length + reads.length + 1) _ _ _ input reads .start (newGame_stands memory)
    (Nat.lt_succ_self _)
  exact ⟨heard, fun depth turns deep long => plays.runs deep long, play⟩

/-- In memory full of zeros White tries e2e5, moves e2e4, hears of e7e5 and hangs up. -/
theorem runClient_umpired_pawn :
    let sent := [cmdMakeMove, 208, 112, cmdMakeMove, 208, 144]
    let heard : List Message := [.notify .yourTurn, .notify .illegalMove, .notify .yourTurn,
      .makeMove (movePair ⟨1, 4, 3, 4, .empty⟩), .notify .yourTurn, .notify .internalServerError]
    runClient 1 8 quietOutside blank 0 sent [['e', '7', 'e', '5', nul]] =
        some (bytes (.initGame 0 :: heard)) ∧
      Umpired quietOutside 0 Contest.start sent [['e', '7', 'e', '5', nul]] heard := by
  intro sent heard
  have clean : Unspilled blank := fun r c _ _ _ => show Player.white.value / 2 % 16 = 0 by decide
  obtain ⟨told, runs, umpired⟩ :=
    runClient_umpired clean 0 quietOutside sent [['e', '7', 'e', '5', nul]]
  have wrote : runClient 1 8 quietOutside blank 0 sent [['e', '7', 'e', '5', nul]] =
      some (bytes (.initGame 0 :: heard)) := by
    decide +kernel
  -- the bytes are those of one list of messages only
  have same := Option.some.inj ((runs 1 8 (by decide) (by decide)).symm.trans wrote)
  obtain rfl : told = heard := (List.cons.inj (Message.flatMap_encode_injective same)).2
  exact ⟨wrote, umpired⟩

end Chessh
