import Chessh.Client.Course
import Chessh.Frontends.Api

/-!
# Connections of the TCP frontend

`start_client` of `frontends/api.c`: a child reads a command and two strings from its connection,
and becomes the client program with the connection for its input and output. `Connection.program` is
all that a child does, as a program of the operations of `users.c`, up to `run_client`;
`Server.sends` is all that is sent on its connection.
-/

namespace Chessh.Frontends

open Program
open Users (CString Program ascii)

/-- `LOGIN`. -/
def login : UInt8 := 0x00

/-- `REGISTER`. -/
def register : UInt8 := 0x08

/-- What the child of `start_client` becomes. -/
inductive Child
  /-- `exit(EXIT_FAILURE)`. -/
  | exited
  /-- `execl`, with the words behind its first argument. -/
  | execs (argv : List (List UInt8))
  deriving DecidableEq

/-- The words for the client program. -/
def clientArgv (user pass : Buffer) (last : List (List UInt8)) : List (List UInt8) :=
  [ascii "chessh-client", ascii "-u", (Users.cString (List.ofFn user)).val, ascii "-p",
    (Users.cString (List.ofFn pass)).val, ascii "-d", ascii "/chessh-server"] ++ last

/-- `start_client` in the child, with what the arrays `user` and `pass` hold before they are set and
what arrives on the connection; and what is left to arrive. -/
def startClient (fuel : Nat) (user pass : Buffer) (stream : List Arrival) :
    Option (Child × List Arrival) :=
  match read 1 stream with
  | (.got [], rest) | (.failed _, rest) => some (.exited, rest)
  | (.got (cmd :: _), rest) => do
    let (code, user, rest) ← readString fuel user rest
    if code ≠ 0 then return (.exited, rest)
    let (code, pass, rest) ← readString fuel pass rest
    if code ≠ 0 then return (.exited, rest)
    if cmd = login then return (.execs (clientArgv user pass []), rest)
    if cmd = register then return (.execs (clientArgv user pass [ascii "-r"]), rest)
    return (.exited, rest)

/-- A connection and its child. -/
structure Connection where
  /-- What arrives. -/
  stream : List Arrival
  /-- What the array `user` holds before it is set. -/
  user : Buffer
  /-- What the array `pass` holds before it is set. -/
  pass : Buffer
  /-- Whether `execl` succeeds. -/
  execs : Bool
  /-- Whether `init_user_db` succeeds. -/
  opened : Bool

/-- The arguments of the client program in the child of a connection, and what is left to arrive. -/
def Connection.takes (fuel : Nat) (c : Connection) : Option (Client.ClientArgs × List Arrival) :=
  match startClient fuel c.user c.pass c.stream with
  | some (.execs argv, input) => (Client.parseArgs argv).toOption.map fun args => (args, input)
  | some (.exited, _) | none => none

/-- What becomes of a child. -/
inductive Fate
  /-- It waits for the rest of a string. -/
  | reads
  | exited (status : Int)
  /-- `run_perft` is called. -/
  | perft (args : Client.ClientArgs)
  /-- `run_client` is called, and its player's input is what is left to arrive. -/
  | plays (sockPath : List UInt8) (input : List Arrival)

/-- What comes of the client program in a child. -/
def Fate.of (input : List Arrival) : Client.Outcome → Fate
  | .exited status => .exited status
  | .perft args => .perft args
  | .plays sockPath => .plays sockPath input

/-- What the child of a connection does. -/
def Connection.program (crypt : CString → CString → Option CString) (fuel : Nat) (c : Connection) :
    Program Fate :=
  match startClient fuel c.user c.pass c.stream with
  | none => return .reads
  | some (.exited, _) => return .exited 1
  | some (.execs argv, input) =>
    if c.execs then do
      let outcome ← Client.main crypt c.opened argv
      return .of input outcome
    else return .exited 1

/-- The connections and the database. -/
abbrev Server := World Users.Op.Answer Connection Fate Users.Store

/-- An empty database and no connection. -/
def Server.start : Server := World.start fun _ => none

/-- Any number of steps of any number of children. -/
abbrev Reaches (crypt : CString → CString → Option CString) (fuel : Nat) : Server → Server → Prop :=
  Program.Reaches Users.Serves (Connection.program crypt fuel)

/-- The bytes of `getchar`. It returns `EOF` where a read fails, and the player is asked no more. -/
def stdin : List Arrival → List UInt8
  | [] => []
  | .chunk bytes :: rest => bytes.val ++ stdin rest
  | .failure _ :: _ => []

/-- What has been sent on a connection whose child has come to this, and how far the child comes;
the connection is its standard output and its standard error. `run_perft` is never called in a
child. -/
def Server.sends (depth turns : Nat) (w : Server) (i : Nat) (s : Client.Surroundings) :
    Fate → Option (List UInt8 × Client.Course)
  | .reads => some ((w.own i).flatMap Users.written, .waits)
  | .exited status => some ((w.own i).flatMap Users.written, .returned status)
  | .perft _ => none
  | .plays sockPath input => do
    let (output, course) ← Client.runClient depth turns s sockPath (stdin input)
    return ((w.own i).flatMap Users.written ++ output, course)

end Chessh.Frontends
