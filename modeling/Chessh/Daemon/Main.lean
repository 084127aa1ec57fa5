import Chessh.Client.Users
import Chessh.Shared.Getopt
import Chessh.Shared.Main

/-!
# The daemon program

`main.c` and `sock.c` of the daemon, up to `run_daemon`.
-/

namespace Chessh.Daemon

open Getopt (Found scan)
open Users (ascii)
open Shared (Quit sockPath sunPath)

/-- `struct daemon_args`. -/
structure DaemonArgs where
  dir : Option (List UInt8)
  deriving DecidableEq, Repr

/-- The option string. -/
def optstring : List UInt8 := ascii "hld:"

/-- The loop of `parse_args`. -/
def readOptions : DaemonArgs → List Found → Except Quit DaemonArgs
  | args, [] => .ok args
  | _, .unknown :: _ => .error .unknown
  | args, .option c optarg :: rest =>
    match Char.ofNat c.toNat with
    | 'h' => .error .help
    | 'l' => .error .legal
    | 'd' => readOptions { args with dir := optarg } rest
    | _ => .error .unknown

/-- `parse_args`, on all words but the first, which names the program. -/
def parseArgs (argv : List (List UInt8)) : Except Quit DaemonArgs := do
  let args ← readOptions ⟨none⟩ (scan optstring none argv.tail)
  if args.dir = none then throw .missing
  return args

/-- `setup_unix_sock`, with what `socket` returns and whether `bind` to an address and `listen` get
through. -/
def setupUnixSock (socket : Int) (bind : List UInt8 → Bool) (listen : Bool)
    (path : List UInt8) : Int :=
  if socket < 0 then -1 else if bind (sunPath path) ∧ listen = true then socket else -1

/-- What `main` comes to. -/
inductive Outset
  | exited (status : Int)
  /-- `run_daemon` is called. -/
  | runs (sockfd : Int)
  deriving DecidableEq, Repr

/-- `main`. -/
def main (socket : Int) (bind : List UInt8 → Bool) (listen : Bool)
    (argv : List (List UInt8)) : Outset :=
  match parseArgs argv with
  | .error quit => .exited quit.status
  | .ok args =>
    let sockFd := setupUnixSock socket bind listen (sockPath (args.dir.getD []))
    if sockFd < 0 then .exited 1 else .runs sockFd

end Chessh.Daemon
