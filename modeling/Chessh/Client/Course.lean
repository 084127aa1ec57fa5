import Chessh.Client.Api
import Chessh.Client.Main
import Chessh.Client.Start

/-!
# The client from its first call to its end

`run_client` of `runner.c` as `main` calls it: it finds its daemon, waits for an opponent and plays.
What it writes is listed in order, be it to standard output or to standard error.
-/

namespace Chessh.Client

open Users (ascii)

/-- What `run_client` meets outside the process. -/
structure Surroundings where
  /-- Whether there is memory for the frontend. -/
  frontend : Bool
  /-- What `socket` returns. -/
  socket : Int
  /-- Whether `connect` gets through to an address. -/
  connect : List UInt8 → Bool
  /-- The text of `errno` behind a failure. -/
  strerror : List UInt8
  /-- The array `fds` before the loop. -/
  fds : List Int
  /-- The calls of `recvfds`. -/
  attempts : List Attempt
  /-- What `new_game` finds in its memory. -/
  memory : Game
  /-- What the game meets. -/
  outside : Outside
  /-- What the reads from the opponent return. -/
  reads : List (List Char)

/-- `perror`. -/
def perror (text : String) (strerror : List UInt8) : List UInt8 :=
  ascii text ++ ascii ": " ++ strerror ++ ascii "\n"

/-- What `unix_connect` writes. -/
def unixConnectError (s : Surroundings) (path : List UInt8) : List UInt8 :=
  if s.socket < 0 then perror "socket() failed" s.strerror
  else if s.connect (Shared.sunPath path) then []
  else perror "connect() failed" s.strerror

/-- How far `run_client` comes. -/
inductive Course
  /-- It waits for an opponent. -/
  | waits
  | returned (status : Int)
  deriving DecidableEq, Repr

/-- The player for a `pid` that is nought or one. No other is sent by `run_daemon`. -/
def playerOf (pid : Int) : Option (Fin 2) :=
  if pid = 0 then some ⟨0, Nat.two_pos⟩ else if pid = 1 then some ⟨1, Nat.one_lt_two⟩ else none

/-- `run_client`, with what it writes. -/
def runClient (depth turns : Nat) (s : Surroundings) (sockPath : List UInt8) (input : List UInt8) :
    Option (List UInt8 × Course) :=
  if s.frontend = false then
    some (ascii "Failed to initialize frontend, quitting\n", .returned 1)
  else if unixConnect s.socket s.connect sockPath < 0 then
    some (reportMsg .waitingForOp ++ unixConnectError s sockPath, .returned 1)
  else
    match awaitStart s.fds s.attempts with
    | none => some (reportMsg .waitingForOp, .waits)
    | some .failed => some (reportMsg .waitingForOp, .returned 1)
    | some (.started _ pid) => do
      let player ← playerOf pid
      let output ← Chessh.runClient depth turns s.outside s.memory player input s.reads
      return (output, .returned 0)

end Chessh.Client
