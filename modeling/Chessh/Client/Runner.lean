import Chessh.Client.Text

/-!
# Two clients

`run_client`, `get_player_move` and `parse_op_move` of `runner.c`, for the two processes the
daemon connects by two pipes. Client 0 plays White. A step is one event of one client: a move
its player names, the end of its player's input, or a read from its pipe. A client that has
left its loop reports a message, exits and closes both of its pipes.
-/

namespace Chessh

/-- The messages with which `run_client` can end. -/
inductive EndMsg
  | unknownError
  | whiteWin
  | blackWin
  | forcedDraw
  | ioError
  deriving DecidableEq, Repr

/-- The end of the loop of `run_client`; `none` means that it goes on. -/
def endMsg (moveCode : Int) : Option EndMsg :=
  if moveCode = whiteWin then some .whiteWin
  else if moveCode = blackWin then some .blackWin
  else if moveCode = forcedDraw then some .forcedDraw
  else if moveCode = ioError then some .ioError
  else if moveCode < 0 then some .unknownError
  else none

/-- One pass of the loop of `get_player_move`, up to its `switch`. -/
def tryMove (depth : Nat) (g : Game) (moveText : List Char) : Option (Int × Game) :=
  match parseMove moveText with
  | none => some (illegalMove, g)
  | some m => makeMove depth g m

/-- `parse_op_move`, after the read. -/
def parseOpMove (depth : Nat) (g : Game) (buff : List Char) : Option (Int × Game) :=
  if buff.length < 5 then some (ioError, g)
  else if buff.getLast? ≠ some nul then some (ioError, g)
  else
    match parseMove (cString buff) with
    | none => some (illegalMove, g)
    | some m =>
      (makeMove depth g m).map fun (code, after) => (if code < 0 then code else 0, after)

/-- The result at every large enough bound on the nesting of attack tests. -/
def Yields (f : Nat → Option (Int × Game)) (code : Int) (after : Game) : Prop :=
  ∃ depth, ∀ extra, f (depth + extra) = some (code, after)

/-- The state of the two processes and the two pipes. -/
structure System where
  /-- The game each client holds. -/
  game : Fin 2 → Game
  /-- The message each client has ended with. -/
  ended : Fin 2 → Option EndMsg
  /-- What has been written to the pipe each client reads from. -/
  pipe : Fin 2 → List Char

/-- Both clients hold a new game. -/
def System.start (memory : Fin 2 → Game) : System :=
  ⟨fun i => newGame (memory i), fun _ => none, fun _ => []⟩

/-- `curr_player`. -/
def currPlayer (g : Game) : Fin 2 := if getPlayer g = .white then 0 else 1

/-- The opponent of a client. -/
def peer (i : Fin 2) : Fin 2 := i + 1

/-- The size of the buffer of `parse_op_move`. -/
def buffSize : Nat := 1024

/-- The events of a client. -/
inductive Event
  /-- Its player names a move by two bytes. -/
  | names (i : Fin 2) (c₁ c₂ : UInt8)
  /-- The input of its player ends, or there is no memory for the text of the move. -/
  | hangsUp (i : Fin 2)
  /-- It reads from its pipe. -/
  | reads (i : Fin 2)

/-- One step of one of the processes. -/
inductive Step (s : System) : Event → System → Prop
  /-- The move is refused, and the loop of `get_player_move` goes on. -/
  | refused {i c₁ c₂ code after} (running : s.ended i = none) (turn : currPlayer (s.game i) = i)
      (tries : Yields (fun depth => tryMove depth (s.game i) (apiText c₁ c₂)) code after)
      (rejected : code = illegalMove ∨ code = missingPromotion) :
      Step s (.names i c₁ c₂) { s with game := Function.update s.game i after }
  /-- The code of the move is negative, and `get_player_move` returns it. -/
  | decided {i c₁ c₂ code after} (running : s.ended i = none) (turn : currPlayer (s.game i) = i)
      (tries : Yields (fun depth => tryMove depth (s.game i) (apiText c₁ c₂)) code after)
      (negative : code < 0) (played : code ≠ illegalMove ∧ code ≠ missingPromotion) :
      Step s (.names i c₁ c₂)
        { s with
          game := Function.update s.game i after
          ended := Function.update s.ended i (endMsg code) }
  /-- The move is played and its text written. -/
  | written {i c₁ c₂ code after} (running : s.ended i = none) (turn : currPlayer (s.game i) = i)
      (tries : Yields (fun depth => tryMove depth (s.game i) (apiText c₁ c₂)) code after)
      (nonneg : 0 ≤ code) :
      Step s (.names i c₁ c₂)
        { game := Function.update s.game i after
          ended := Function.update s.ended i (endMsg code)
          pipe := Function.update s.pipe (peer i) (s.pipe (peer i) ++ apiText c₁ c₂ ++ [nul]) }
  /-- The move is played, and the write fails since the opponent is gone. -/
  | lost {i c₁ c₂ code after} (running : s.ended i = none) (turn : currPlayer (s.game i) = i)
      (tries : Yields (fun depth => tryMove depth (s.game i) (apiText c₁ c₂)) code after)
      (nonneg : 0 ≤ code) (gone : s.ended (peer i) ≠ none) :
      Step s (.names i c₁ c₂)
        { s with
          game := Function.update s.game i after
          ended := Function.update s.ended i (endMsg ioError) }
  /-- `get_move` returns no text. -/
  | hungUp {i} (running : s.ended i = none) (turn : currPlayer (s.game i) = i) :
      Step s (.hangsUp i) { s with ended := Function.update s.ended i (endMsg ioError) }
  /-- The read takes what the pipe holds, at most a buffer of it. -/
  | read {i code after} (running : s.ended i = none) (waiting : currPlayer (s.game i) ≠ i)
      (filled : s.pipe i ≠ [])
      (parses : Yields (fun depth => parseOpMove depth (s.game i) ((s.pipe i).take buffSize))
        code after) :
      Step s (.reads i)
        { game := Function.update s.game i after
          ended := Function.update s.ended i (endMsg code)
          pipe := Function.update s.pipe i ((s.pipe i).drop buffSize) }
  /-- The pipe is empty and the opponent gone: the read returns zero. -/
  | eof {i code after} (running : s.ended i = none) (waiting : currPlayer (s.game i) ≠ i)
      (drained : s.pipe i = []) (gone : s.ended (peer i) ≠ none)
      (parses : Yields (fun depth => parseOpMove depth (s.game i) []) code after) :
      Step s (.reads i)
        { s with
          game := Function.update s.game i after
          ended := Function.update s.ended i (endMsg code) }

/-- An execution, with every event and the state in which it happened. -/
inductive Execution (start : System) : List (System × Event) → System → Prop
  /-- Nothing has happened yet. -/
  | start : Execution start [] start
  /-- One more step. -/
  | step {history : List (System × Event)} {s : System} {event : Event} {next : System} :
      Execution start history s → Step s event next →
      Execution start (history ++ [(s, event)]) next

end Chessh
