import Mathlib.Data.List.TakeWhile
import Chessh.Client.Program
import Chessh.Wire.Message

/-!
# Registered users

`crypt.c` and `users.c`. The functions are programs that draw random numbers, put and get records of
the database and write to standard output; processes that call them share the database and nothing
else. `crypt` is a parameter: a function of two C strings that may fail.
-/

namespace Chessh.Users

open Program

/-- A C string: its bytes up to the terminator. -/
abbrev CString := { bytes : List UInt8 // 0 ∉ bytes }

/-- An array of `n` bytes. -/
abbrev Bytes (n : Nat) := Fin n → UInt8

/-- A zeroed array that bytes are copied into. -/
def copied (n : Nat) (bytes : List UInt8) : Bytes n := fun i => bytes.getD i 0

/-- The C string that bytes start with. -/
def cString (bytes : List UInt8) : CString :=
  ⟨bytes.takeWhile (· ≠ 0), fun member => by simpa using List.mem_takeWhile_imp member⟩

/-- `struct chessh_user`. -/
structure ChesshUser where
  /-- The name, terminated. -/
  username : Bytes 256
  /-- The hash of the password in the format of `/etc/shadow`, terminated. -/
  pass : Bytes 88
  /-- The game that was played last. -/
  lastGame : Bytes 16
  deriving DecidableEq

/-- The hash as a C string. -/
def ChesshUser.hash (user : ChesshUser) : CString := cString (List.ofFn user.pass)

/-- The name as a C string. -/
def ChesshUser.name (user : ChesshUser) : CString := cString (List.ofFn user.username)

/-- The record of a new user. -/
def newUser (user passHashed : CString) : ChesshUser :=
  { username := copied 256 user.val, pass := copied 88 passHashed.val, lastGame := copied 16 [] }

/-- What the database returns when it fails. -/
inductive DbError
  /-- `DB_KEYEXIST`. -/
  | keyExist
  /-- `DB_NOTFOUND`. -/
  | notFound
  | other (code : Int)
  deriving DecidableEq

/-- The operations of the functions. -/
inductive Op
  /-- `random()`. -/
  | random
  /-- `put` with `DB_NOOVERWRITE`. -/
  | put (key : List UInt8) (value : ChesshUser)
  | get (key : List UInt8)
  /-- `putchar` and `fputs`. -/
  | write (bytes : List UInt8)
  /-- What C leaves undefined. Nothing comes after it. -/
  | fault
  deriving DecidableEq

/-- Their answers. No error stands for 0. -/
@[reducible] def Op.Answer : Op → Type
  | .random => Nat
  | .put _ _ => Option DbError
  | .get _ => Except DbError ChesshUser
  | .write _ => Unit
  | .fault => Empty

/-- A program of these operations. -/
abbrev Program := Prog Op.Answer

/-- `random()`. -/
def random : Program Nat := Prog.ask Op.random

/-- `db->user_dbp->put`. -/
def put (key : List UInt8) (value : ChesshUser) : Program (Option DbError) :=
  Prog.ask (Op.put key value)

/-- `db->user_dbp->get`. -/
def get (key : List UInt8) : Program (Except DbError ChesshUser) := Prog.ask (Op.get key)

/-- `putchar` and `fputs`. -/
def write (bytes : List UInt8) : Program Unit := Prog.ask (Op.write bytes)

/-- Undefined behaviour. -/
def fault {α : Type} : Program α := do
  let never : Empty ← Prog.ask Op.fault
  nomatch never

/-! ## crypt.c -/

/-- The bytes of a text. -/
def ascii (text : String) : List UInt8 := text.toList.map fun ch => UInt8.ofNat ch.toNat

/-- The characters of a salt. -/
def saltChars : List UInt8 :=
  ascii "abcdefghijklmnopqrstuvwxyzABCDEFGHIJKLMNOPQRSTUVWXYZ0123456789./"

/-- `gen_salt_char`. -/
def genSaltChar : Program UInt8 := do
  let drawn ← random
  return saltChars.getD (drawn &&& 63) 0

/-- The loop of `crypt_salt` over the template of the salt. -/
def fillSalt : List UInt8 → Program (List UInt8)
  | [] => return []
  | byte :: rest => do
    let first ← (if byte = 88 then genSaltChar else pure byte)
    let others ← fillSalt rest
    return first :: others

section Functions

variable (crypt : CString → CString → Option CString)

/-- `crypt_salt`. -/
def cryptSalt (key : CString) : Program (Option CString) := do
  let salt ← fillSalt (ascii "$5$XXXXXXXXXXXXXXXX$")
  return crypt key (cString salt)

/-! ## users.c -/

/-- `REGISTRATION_SUCCESSFUL`. -/
def registrationSuccessful : UInt8 := 0x00
/-- `REGISTRATION_FAILED`. -/
def registrationFailed : UInt8 := 0x01
/-- `AUTH_SUCCESSFUL`. -/
def authSuccessful : UInt8 := 0x80
/-- `AUTH_FAILED`. -/
def authFailed : UInt8 := 0x81

/-- `report_msg`. A text that is too long goes to standard error. -/
def reportMsg (code : UInt8) (elaboration : List UInt8) : Program Unit := do
  if elaboration.length > 0xff then
    return ()
  write [0x09]
  write [code]
  write [UInt8.ofNat elaboration.length]
  write elaboration

/-- `register_user`. -/
def registerUser (user pass : CString) : Program Int := do
  if user.val.length > 0xff then
    reportMsg registrationFailed (ascii "Username is too long (max len: 255)")
    return -1
  if user.val.head? = some 95 then
    reportMsg registrationFailed (ascii "Usernames beginning with an underscore are reserved")
    return -1
  match ← cryptSalt crypt pass with
  | none =>
    reportMsg registrationFailed (ascii "Failed to hash password")
    return -1
  | some passHashed =>
    if passHashed.val.length + 1 ≥ 88 then
      reportMsg registrationFailed (ascii "Hashed password too long? (internal server error)")
      return -1
    match ← put user.val (newUser user passHashed) with
    | some .keyExist =>
      reportMsg registrationFailed (ascii "Username already registered :(")
      return -1
    | some _ =>
      reportMsg registrationFailed (ascii "Unknown error while writing to database")
      return -1
    | none =>
      reportMsg registrationSuccessful (ascii "User registered, we did it reddit!")
      return 0

/-- `user_is_valid`. `strcmp` may not be called on `NULL`. -/
def userIsValid (user pass : CString) : Program Bool := do
  match ← get user.val with
  | .error code =>
    let msg :=
      if code = .notFound then "Couldn't find a user with that name"
      else "Failed to retrieve user from database"
    reportMsg authFailed (ascii msg)
    return false
  | .ok userData =>
    match crypt pass userData.hash with
    | none => fault
    | some passEncrypted =>
      if passEncrypted ≠ userData.hash then
        reportMsg authFailed (ascii "Incorrect username/password")
        return false
      reportMsg authSuccessful (ascii "Authentication successful, we're in")
      return true

end Functions

/-! ## The database and its callers -/

/-- The records of the database by their keys. -/
abbrev Store := List UInt8 → Option ChesshUser

/-- What the database answers, and what becomes of it. A put that finds no record inserts one or
fails without effect; a get returns the record that is stored or fails. -/
inductive Serves : Store → Interaction Op.Answer → Store → Prop
  | random (s : Store) (n : Nat) : Serves s ⟨.random, n⟩ s
  | write (s : Store) (bytes : List UInt8) : Serves s ⟨.write bytes, ()⟩ s
  | inserted {s : Store} {key : List UInt8} {value : ChesshUser} (absent : s key = none) :
    Serves s ⟨.put key value, (none : Option DbError)⟩ (Function.update s key (some value))
  | taken {s : Store} {key : List UInt8} {value : ChesshUser} (present : s key ≠ none) :
    Serves s ⟨.put key value, some DbError.keyExist⟩ s
  | unwritten (s : Store) (key : List UInt8) (value : ChesshUser) (code : Int) :
    Serves s ⟨.put key value, some (DbError.other code)⟩ s
  | found {s : Store} {key : List UInt8} {value : ChesshUser} (present : s key = some value) :
    Serves s ⟨.get key, (.ok value : Except DbError ChesshUser)⟩ s
  | notFound {s : Store} {key : List UInt8} (absent : s key = none) :
    Serves s ⟨.get key, (.error .notFound : Except DbError ChesshUser)⟩ s
  | unread (s : Store) (key : List UInt8) (code : Int) :
    Serves s ⟨.get key, (.error (.other code) : Except DbError ChesshUser)⟩ s

/-- A call of one of the two functions. -/
inductive Request
  | register (user pass : CString)
  | validate (user pass : CString)
  deriving DecidableEq

/-- The password. -/
def Request.password : Request → CString
  | .register _ pass => pass
  | .validate _ pass => pass

/-- The program of a call. `true` is 1. -/
def Request.program (crypt : CString → CString → Option CString) : Request → Program Int
  | .register user pass => registerUser crypt user pass
  | .validate user pass => do
    let valid ← userIsValid crypt user pass
    return if valid then 1 else 0

/-- The answer that says success. -/
def Request.success : Request → Wire.AuthCode
  | .register _ _ => .registered
  | .validate _ _ => .authenticated

/-- The answer that says failure. -/
def Request.failure : Request → Wire.AuthCode
  | .register _ _ => .notRegistered
  | .validate _ _ => .notAuthenticated

/-- The result says success. -/
def Request.Succeeds : Request → Int → Prop
  | .register _ _, result => result = 0
  | .validate _ _, result => result ≠ 0

/-- The calls and the database. -/
abbrev Calls := World Op.Answer Request Int Store

/-- An empty database that nobody has called. -/
def Calls.start : Calls := World.start fun _ => none

/-- Any number of steps of any number of calls. -/
abbrev Reaches (crypt : CString → CString → Option CString) : Calls → Calls → Prop :=
  Program.Reaches Serves (Request.program crypt)

/-- The call has returned. -/
def Returned (w : Calls) (i : Nat) (request : Request) (result : Int) : Prop :=
  w.callers[i]? = some (request, .ret result)

/-- The bytes an event writes. -/
def written : Interaction Op.Answer → List UInt8
  | ⟨.write bytes, _⟩ => bytes
  | ⟨.random, _⟩ | ⟨.put _ _, _⟩ | ⟨.get _, _⟩ | ⟨.fault, _⟩ => []

end Chessh.Users
