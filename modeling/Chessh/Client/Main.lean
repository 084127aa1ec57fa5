import Chessh.Client.Users
import Chessh.Shared.Getopt
import Chessh.Shared.Main

/-!
# The client program

`main.c` and `sock.c` of the client. `main` is a program of the operations of `users.c`; it ends
with an exit status, or goes on as `run_perft` or as `run_client`.
-/

namespace Chessh.Client

open Getopt (Found scan)
open Users (CString Program ascii)
open Shared (Quit sockPath sunPath)

/-- `struct client_args`. -/
structure ClientArgs where
  dir : Option (List UInt8)
  user : Option (List UInt8)
  pass : Option (List UInt8)
  perft : Int
  startPos : Option (List UInt8)
  startSequence : Option (List UInt8)
  autotest : Bool
  registerUser : Bool
  deriving DecidableEq, Repr

/-- `isspace`. -/
def isSpace (byte : UInt8) : Bool := byte = 32 ∨ 9 ≤ byte ∧ byte ≤ 13

/-- The number that the digits at the start of a text make. -/
def digitsValue (text : List UInt8) : Int :=
  (text.takeWhile fun byte => 48 ≤ byte ∧ byte ≤ 57).foldl
    (fun n byte => n * 10 + (byte.toNat - 48)) 0

/-- `atoi`: a `long` at the bounds of its range, converted to an `int`. -/
def atoi (text : List UInt8) : Int :=
  let value :=
    match text.dropWhile isSpace with
    | 45 :: digits => -digitsValue digits
    | 43 :: digits => digitsValue digits
    | digits => digitsValue digits
  Int.bmod (max (-2 ^ 63) (min value (2 ^ 63 - 1))) (2 ^ 32)

/-- The option string. The loop has no case for `m`. -/
def optstring : List UInt8 := ascii "hld:u:p:t:i:s:amr"

/-- The loop of `parse_args`. -/
def readOptions : ClientArgs → List Found → Except Quit ClientArgs
  | args, [] => .ok args
  | _, .unknown :: _ => .error .unknown
  | args, .option c optarg :: rest =>
    match Char.ofNat c.toNat with
    | 'h' => .error .help
    | 'l' => .error .legal
    | 'd' => readOptions { args with dir := optarg } rest
    | 'u' => readOptions { args with user := optarg } rest
    | 'p' => readOptions { args with pass := optarg } rest
    | 't' => readOptions { args with perft := atoi (optarg.getD []) } rest
    | 'i' => readOptions { args with startPos := optarg } rest
    | 's' => readOptions { args with startSequence := optarg } rest
    | 'a' => readOptions { args with autotest := true } rest
    | 'r' => readOptions { args with registerUser := true } rest
    | _ => .error .unknown

/-- `parse_args`, on all words but the first, which names the program. -/
def parseArgs (argv : List (List UInt8)) : Except Quit ClientArgs := do
  let args ← readOptions ⟨none, none, none, -1, none, none, false, false⟩
    (scan optstring none argv.tail)
  if args.perft ≠ -1 then return args
  if (args.registerUser = false ∧ args.dir = none) ∨ args.user = none ∨ args.pass = none then
    throw .missing
  return args

/-- What `main` comes to. -/
inductive Outcome
  | exited (status : Int)
  /-- `run_perft` is called. -/
  | perft (args : ClientArgs)
  /-- `run_client` is called. -/
  | plays (sockPath : List UInt8)
  deriving DecidableEq, Repr

/-- `main`, where `opened` says whether `init_user_db` succeeds. -/
def main (crypt : CString → CString → Option CString) (opened : Bool) (argv : List (List UInt8)) :
    Program Outcome :=
  match parseArgs argv with
  | .error quit => return .exited quit.status
  | .ok args =>
    if args.perft ≠ -1 then return .perft args
    else if opened = false then return .exited 1
    else if args.registerUser then do
      let code ← Users.registerUser crypt (Users.cString (args.user.getD []))
        (Users.cString (args.pass.getD []))
      return .exited code
    else do
      let valid ← Users.userIsValid crypt (Users.cString (args.user.getD []))
        (Users.cString (args.pass.getD []))
      return if valid then .plays (sockPath (args.dir.getD [])) else .exited 1

/-- `unix_connect`, with what `socket` returns and whether `connect` gets through to an address. -/
def unixConnect (socket : Int) (connect : List UInt8 → Bool) (path : List UInt8) : Int :=
  if socket < 0 then -1 else if connect (sunPath path) then socket else -1

end Chessh.Client
