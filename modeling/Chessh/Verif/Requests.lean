import Chessh.Frontends.Server
import Chessh.Verif.Strings

/-!
# What a connection asks for

The bytes of a connection on their way through `start_client`, the words for the client program and
`parse_args` into `struct client_args`. Whatever the strings are, also where they look like options,
they become the name and the password and nothing else: `Connection.commanded_iff`.
-/

namespace Chessh.Frontends

open Getopt (Setting)
open Users (CString ascii)
open Wire (Message Text)

/-! ## Strings -/

section Strings

variable {stream rest : List Arrival} {dst dst' : Buffer} {len : UInt8} {fuel n : Nat}
  {result : Int}

/-- More fuel changes nothing. -/
theorem readLoop_more {answer : Int × Buffer × List Arrival} (k : Nat)
    (returns : readLoop fuel dst len stream = some answer) :
    readLoop (fuel + k) dst len stream = some answer := by
  induction fuel generalizing dst len stream with
  | zero => cases returns
  | succ fuel ih =>
    rw [Nat.add_right_comm]
    unfold readLoop at returns ⊢
    split at returns
    · rename_i wanted
      rw [if_pos wanted]
      split at returns
      · split at returns
        · rename_i other
          rw [if_pos other]
          exact returns
        · rename_i again
          rw [if_neg again]
          exact ih returns
      · exact ih returns
    · rename_i done
      rw [if_neg done]
      exact returns

/-- More fuel changes nothing. -/
theorem readString_more {answer : Int × Buffer × List Arrival} (k : Nat)
    (returns : readString fuel dst stream = some answer) :
    readString (fuel + k) dst stream = some answer := by
  unfold readString at returns ⊢
  split at returns
  · exact readLoop_more k returns
  · exact returns
  · exact returns

/-- What is left of a calm stream is calm. -/
theorem Calm.read (calm : Calm stream) (n : Nat) : Calm (read n stream).2 := by
  cases stream with
  | nil => exact calm
  | cons arrival others =>
    cases arrival with
    | failure errno => exact calm.tail
    | chunk bytes =>
      rcases Nat.lt_or_ge n bytes.val.length with part | whole
      · rw [read_part part]
        intro errno member
        rcases List.mem_cons.mp member with first | later
        · cases first
        · exact calm.tail errno later
      · rw [read_whole whole]
        exact calm.tail

/-- What the loop leaves of a calm stream is calm. -/
theorem Calm.readLoop (calm : Calm stream)
    (returns : Frontends.readLoop fuel dst len stream = some (result, dst', rest)) : Calm rest := by
  induction fuel generalizing dst len stream with
  | zero => cases returns
  | succ fuel ih =>
    unfold Frontends.readLoop at returns
    split at returns
    · have left := calm.read len.toNat
      split at returns
      · rename_i errno others reads
        rw [reads] at left
        split at returns
        · cases returns
          exact left
        · exact ih left returns
      · rename_i bytes others reads
        rw [reads] at left
        exact ih left returns
    · cases returns
      exact calm

/-- What `read_string` leaves of a calm stream is calm. -/
theorem Calm.readString (calm : Calm stream)
    (returns : Frontends.readString fuel dst stream = some (result, dst', rest)) : Calm rest := by
  have left := calm.read 1
  unfold Frontends.readString at returns
  split at returns
  · rename_i len others rest reads
    rw [reads] at left
    exact left.readLoop returns
  · rename_i rest reads
    rw [reads] at left
    cases returns
    exact left
  · rename_i errno rest reads
    rw [reads] at left
    cases returns
    exact left

/-- The C string in an array that holds a string and a terminator. -/
theorem cString_array {n : Nat} {array : Fin n → UInt8} {content : List UInt8}
    (short : content.length < n)
    (held : ∀ i : Fin n, i.val < content.length → content[i.val]? = some (array i))
    (ends : ∀ i : Fin n, i.val = content.length → array i = 0) :
    Users.cString (List.ofFn array) = Users.cString content := by
  have inside : content.length < (List.ofFn array).length := by simpa using short
  have front : (List.ofFn array).take content.length = content := by
    refine List.ext_getElem (by simp; omega) fun i first second => ?_
    rw [List.getElem_take, List.getElem_ofFn]
    have here := held ⟨i, by omega⟩ second
    rw [List.getElem?_eq_getElem second] at here
    exact (Option.some.inj here).symm
  have last : (List.ofFn array).drop content.length =
      0 :: (List.ofFn array).drop (content.length + 1) := by
    rw [List.drop_eq_getElem_cons inside, List.getElem_ofFn, ends ⟨content.length, short⟩ rfl]
  apply Subtype.ext
  change (List.ofFn array).takeWhile (· ≠ 0) = content.takeWhile (· ≠ 0)
  rw [← List.take_append_drop content.length (List.ofFn array), front, last, List.takeWhile_append]
  split
  · rename_i whole
    rw [List.takeWhile_cons_of_neg (by simp), List.append_nil]
    exact ((List.takeWhile_prefix _).eq_of_length whole).symm
  · rfl

/-- A C string ends where the array holds a terminator. -/
theorem cString_length_le {n : Nat} {array : Fin n → UInt8} {i : Fin n} (zero : array i = 0) :
    (Users.cString (List.ofFn array)).val.length ≤ i := by
  by_contra longer
  have front : (Users.cString (List.ofFn array)).val <+: List.ofFn array := List.takeWhile_prefix _
  have here := front.getElem (Nat.not_le.mp longer)
  rw [List.getElem_ofFn, zero] at here
  have member := List.getElem_mem (Nat.not_le.mp longer)
  rw [here] at member
  exact (Users.cString (List.ofFn array)).property member

/-- A string that is read has at most 255 bytes, however it comes. -/
theorem readString_short (returns : readString fuel dst stream = some (0, dst', rest)) :
    (Users.cString (List.ofFn dst')).val.length ≤ 255 := by
  unfold readString at returns
  split at returns
  · rename_i len others left reads
    have small := len.toNat_lt
    have ends : dst' len.toFin = 0 :=
      (readLoop_keeps returns le_rfl).trans (Function.update_self ..)
    have within := cString_length_le ends
    change _ ≤ len.toNat at within
    omega
  · cases returns
  · cases returns

/-- Runs with enough fuel agree. -/
theorem readString_unique {fuel' : Nat} {answer answer' : Int × Buffer × List Arrival}
    (first : readString fuel dst stream = some answer)
    (second : readString fuel' dst stream = some answer') : answer = answer' := by
  have more := readString_more fuel' first
  rw [Nat.add_comm, readString_more fuel second] at more
  exact (Option.some.inj more).symm

/-- A string that comes in one piece ends up in the buffer. -/
theorem InOnePiece.reads {content more : List UInt8} (whole : InOnePiece stream len)
    (calm : Calm stream) (length : content.length = len.toNat)
    (delivered : bytesOf stream = len :: content ++ more) (dst : Buffer) :
    ∃ fuel dst' rest, (∀ k, readString (fuel + k) dst stream = some (0, dst', rest)) ∧ Calm rest ∧
      bytesOf rest = more ∧ Users.cString (List.ofFn dst') = Users.cString content := by
  obtain ⟨fuel, dst', rest, returns, left, held, ends⟩ := whole.right calm length delivered dst
  have short := len.toNat_lt
  exact ⟨fuel, dst', rest, fun k => readString_more k returns, calm.readString returns, left,
    cString_array (by omega) held ends⟩

/-- The string that is next comes in one piece. -/
def NextWhole (stream : List Arrival) : Prop :=
  ∀ len string, bytesOf stream = len :: string → InOnePiece stream len

/-- A string that was sent is read. -/
theorem NextWhole.reads {text : Text} {more : List UInt8} (next : NextWhole stream)
    (calm : Calm stream) (delivered : bytesOf stream = Wire.textBytes text ++ more) (dst : Buffer) :
    ∃ fuel dst' rest, (∀ k, readString (fuel + k) dst stream = some (0, dst', rest)) ∧ Calm rest ∧
      bytesOf rest = more ∧ Users.cString (List.ofFn dst') = Users.cString text.val := by
  have starts : bytesOf stream = UInt8.ofNat text.val.length :: text.val ++ more := delivered
  refine (next _ _ starts).reads calm ?_ starts dst
  rw [UInt8.toNat_ofNat', Nat.mod_eq_of_lt text.property]

/-- What a read takes is the start of the stream. -/
theorem bytesOf_read {bytes : List UInt8} (reads : read n stream = (.got bytes, rest)) :
    bytesOf stream = bytes ++ bytesOf rest := by
  cases stream with
  | nil =>
    cases reads
    rfl
  | cons arrival others =>
    cases arrival with
    | failure errno => cases reads
    | chunk all =>
      rcases Nat.lt_or_ge n all.val.length with part | whole
      · rw [read_part part] at reads
        cases reads
        rw [bytesOf, bytesOf, ← List.append_assoc, List.take_append_drop]
      · rw [read_whole whole] at reads
        cases reads
        rfl

/-- A string that is read was sent. -/
theorem NextWhole.sent (next : NextWhole stream) (calm : Calm stream)
    (returns : readString fuel dst stream = some (0, dst', rest)) :
    ∃ text : Text, bytesOf stream = Wire.textBytes text ++ bytesOf rest ∧ Calm rest ∧
      Users.cString (List.ofFn dst') = Users.cString text.val := by
  have returned := returns
  unfold readString at returned
  split at returned
  · rename_i len others left reads
    have starts := bytesOf_read reads
    obtain ⟨⟨bytes, behind, rfl⟩, long⟩ := next len _ starts
    obtain ⟨left', reads', bytesLeft, -⟩ := read_length starts calm
    rw [reads'] at reads long
    cases reads
    have front := firstChunk_prefix left
    have many : len.toNat ≤ (bytesOf left).length := long.trans front.length_le
    let text : Text := ⟨(bytesOf left).take len.toNat, by
      rw [List.length_take]
      have small := len.toNat_lt
      omega⟩
    have size : text.val.length = len.toNat := List.length_take_of_le many
    have count : Wire.countByte text.val.length = [len] := by
      rw [Wire.countByte, size, UInt8.ofNat_toNat]
    have delivered : bytesOf (.chunk bytes :: behind) =
        Wire.textBytes text ++ (bytesOf left).drop len.toNat := by
      rw [starts, Wire.textBytes, count, List.append_assoc]
      congr 1
      exact (List.take_append_drop len.toNat (bytesOf left)).symm
    obtain ⟨fuel', dst'', rest', returns', calm', left', same⟩ := next.reads calm delivered dst
    cases readString_unique returns (returns' 0)
    exact ⟨text, by rw [delivered, left'], calm', same⟩
  · cases returned
  · cases returned

end Strings

/-! ## Words -/

/-- What `struct client_args` is for the child of a connection. -/
def clientArgs (user pass : CString) (registers : Bool) : Client.ClientArgs :=
  ⟨some (ascii "/chessh-server"), some user.val, some pass.val, -1, none, none, false, registers⟩

/-- The settings that `start_client` writes out. -/
def clientSettings (user pass : CString) (registers : Bool) : List Setting :=
  [.value 117 user.val, .value 112 pass.val, .value 100 (ascii "/chessh-server")] ++
    if registers then [.flag 114] else []

/-- They are options of the client program. -/
theorem clientSettings_fit (user pass : CString) (registers : Bool) :
    ∀ s ∈ clientSettings user pass registers, s.Fits Client.optstring := by
  have name : Getopt.lookup Client.optstring 117 = some .argument ∧
    (117 : UInt8) ≠ Getopt.dash := by
    decide
  have password : Getopt.lookup Client.optstring 112 = some .argument ∧
      (112 : UInt8) ≠ Getopt.dash := by decide
  have directory : Getopt.lookup Client.optstring 100 = some .argument ∧
      (100 : UInt8) ≠ Getopt.dash := by decide
  have registering : Getopt.lookup Client.optstring 114 = some .nothing ∧
      (114 : UInt8) ≠ Getopt.dash := by decide
  intro s member
  unfold clientSettings at member
  cases registers <;> simp at member
  · rcases member with rfl | rfl | rfl
    exacts [name, password, directory]
  · rcases member with rfl | rfl | rfl | rfl
    exacts [name, password, directory, registering]

/-- The name and the password are read as they are, even if they are words for options. -/
theorem parseArgs_client (user pass : Buffer) (registers : Bool) :
    Client.parseArgs (clientArgv user pass (if registers then [ascii "-r"] else [])) =
      .ok (clientArgs (Users.cString (List.ofFn user))
        (Users.cString (List.ofFn pass)) registers) := by
  have found := Getopt.scan_words (clientSettings_fit (Users.cString (List.ofFn user))
    (Users.cString (List.ofFn pass)) registers)
  have words : (clientArgv user pass (if registers then [ascii "-r"] else [])).tail =
      (clientSettings (Users.cString (List.ofFn user)) (Users.cString (List.ofFn pass))
        registers).flatMap Setting.words := by
    cases registers <;> rfl
  unfold Client.parseArgs
  rw [words, found]
  cases registers <;> rfl

/-! ## Connections -/

section Connections

variable {fuel : Nat} {user pass : Buffer} {stream input : List Arrival}
  {c : Connection} {args : Client.ClientArgs}

/-- The child has read a command and two strings. -/
def Commanded (fuel : Nat) (user pass : Buffer) (stream : List Arrival) (registers : Bool)
    (user' pass' : Buffer) (input : List Arrival) : Prop :=
  ∃ others rest rest',
    read 1 stream = (.got ((if registers then register else login) :: others), rest) ∧
      readString fuel user rest = some (0, user', rest') ∧
      readString fuel pass rest' = some (0, pass', input)

/-- The child becomes the client program behind a command and two strings. -/
theorem startClient_execs {argv : List (List UInt8)} :
    startClient fuel user pass stream = some (.execs argv, input) ↔
      ∃ registers user' pass', Commanded fuel user pass stream registers user' pass' input ∧
        argv = clientArgv user' pass' (if registers then [ascii "-r"] else []) := by
  constructor
  · intro execs
    unfold startClient at execs
    split at execs
    · cases execs
    · cases execs
    rename_i cmd others rest reads
    simp only [Option.bind_eq_bind, Option.bind_eq_some_iff, Prod.exists] at execs
    obtain ⟨code, user', rest', first, execs⟩ := execs
    by_cases failed : code ≠ 0
    · rw [if_pos failed] at execs
      cases execs
    rw [if_neg failed] at execs
    obtain rfl := not_not.mp failed
    simp only [Option.bind_eq_some_iff, Prod.exists] at execs
    obtain ⟨code, pass', left, second, execs⟩ := execs
    by_cases failed : code ≠ 0
    · rw [if_pos failed] at execs
      cases execs
    rw [if_neg failed] at execs
    obtain rfl := not_not.mp failed
    by_cases asksLogin : cmd = login
    · rw [if_pos asksLogin] at execs
      cases execs
      exact ⟨false, user', pass', ⟨others, rest, rest', by rw [reads, asksLogin]; rfl,
        first, second⟩, rfl⟩
    rw [if_neg asksLogin] at execs
    by_cases asksRegister : cmd = register
    · rw [if_pos asksRegister] at execs
      cases execs
      exact ⟨true, user', pass', ⟨others, rest, rest', by rw [reads, asksRegister]; rfl,
        first, second⟩,
        rfl⟩
    · rw [if_neg asksRegister] at execs
      cases execs
  · rintro ⟨registers, user', pass', ⟨others, rest, rest', reads, first, second⟩, rfl⟩
    unfold startClient
    rw [reads]
    dsimp only
    rw [first, Option.bind_eq_bind, Option.bind_some]
    dsimp only
    rw [if_neg (not_not.mpr rfl), second, Option.bind_some]
    cases registers <;> rfl

/-- The arguments of the client program are those of a command. -/
theorem Connection.takes_some : c.takes fuel = some (args, input) ↔
    ∃ registers user' pass', Commanded fuel c.user c.pass c.stream registers user' pass' input ∧
      args = clientArgs (Users.cString (List.ofFn user')) (Users.cString (List.ofFn pass'))
        registers := by
  unfold Connection.takes
  constructor
  · intro takes
    split at takes
    · rename_i argv left execs
      obtain ⟨registers, user', pass', commanded, rfl⟩ := startClient_execs.mp execs
      rw [parseArgs_client] at takes
      cases takes
      exact ⟨registers, user', pass', commanded, rfl⟩
    · cases takes
    · cases takes
  · rintro ⟨registers, user', pass', commanded, rfl⟩
    rw [startClient_execs.mpr ⟨registers, user', pass', commanded, rfl⟩]
    dsimp only
    rw [parseArgs_client]
    rfl

/-- What a child has read is short. -/
theorem Commanded.short {registers : Bool} {user' pass' : Buffer}
    (commanded : Commanded fuel user pass stream registers user' pass' input) :
    (Users.cString (List.ofFn pass')).val.length ≤ 255 := by
  obtain ⟨others, rest, rest', -, -, second⟩ := commanded
  exact readString_short second

/-- The arguments that a message asks for. -/
def argsOf : Message → Option Client.ClientArgs
  | .login user pass => some (clientArgs (Users.cString user.val) (Users.cString pass.val) false)
  | .register user pass => some (clientArgs (Users.cString user.val) (Users.cString pass.val) true)
  | .makeMove _ | .getBoard | .getValidMoves | .initGame _ | .boardInfo _ | .moveInfo _ | .notify _
  | .authResponse _ _ => none

/-- The connection delivers its command and its strings in one piece each, without an error. -/
structure Connection.Whole (c : Connection) : Prop where
  calm : Calm c.stream
  starts : bytesOf c.stream ≠ [] → ∃ bytes rest, c.stream = .chunk bytes :: rest
  first : NextWhole (read 1 c.stream).2
  second : ∀ fuel user rest, readString fuel c.user (read 1 c.stream).2 = some (0, user, rest) →
    NextWhole rest

/-- What a child has read was sent. -/
theorem Connection.Whole.sent (whole : c.Whole) (takes : c.takes fuel = some (args, input)) :
    ∃ message, bytesOf c.stream = message.encode ++ bytesOf input ∧ argsOf message = some args := by
  obtain ⟨registers, user', pass', ⟨others, rest, rest', reads, first, second⟩, rfl⟩ :=
    Connection.takes_some.mp takes
  have starts := bytesOf_read reads
  obtain ⟨bytes, behind, shape⟩ := whole.starts (by rw [starts]; exact List.cons_ne_nil _ _)
  obtain rfl : others = [] := by
    rw [shape] at starts reads
    obtain ⟨left, reads', -⟩ := read_length starts (shape ▸ whole.calm)
    rw [reads'] at reads
    cases reads
    rfl
  have calm := whole.calm.read 1
  have next := whole.first
  have last := whole.second fuel user' rest'
  rw [reads] at calm next last
  obtain ⟨name, delivered, calm', same⟩ := next.sent calm first
  obtain ⟨password, delivered', -, same'⟩ := (last first).sent calm' second
  rw [starts, delivered, delivered', same, same']
  cases registers with
  | false => exact ⟨.login name password, by simp [Message.encode, Message.arguments]; rfl, rfl⟩
  | true => exact ⟨.register name password, by simp [Message.encode, Message.arguments]; rfl, rfl⟩

/-- What was sent is read. -/
theorem Connection.Whole.takes (whole : c.Whole) {message : Message} {more : List UInt8}
    (delivered : bytesOf c.stream = message.encode ++ more) (asks : argsOf message = some args) :
    ∃ fuel input, (∀ k, c.takes (fuel + k) = some (args, input)) ∧ bytesOf input = more := by
  obtain ⟨registers, name, password, shape, rfl⟩ : ∃ registers name password,
      message.encode = (if registers then register else login) ::
        (Wire.textBytes name ++ Wire.textBytes password) ∧
      args = clientArgs (Users.cString name.val) (Users.cString password.val) registers := by
    cases message with
    | login name password =>
      cases asks
      exact ⟨false, name, password, rfl, rfl⟩
    | register name password =>
      cases asks
      exact ⟨true, name, password, rfl, rfl⟩
    | _ => cases asks
  rw [shape, List.cons_append, List.append_assoc] at delivered
  obtain ⟨bytes, behind, chunk⟩ := whole.starts (by rw [delivered]; exact List.cons_ne_nil _ _)
  have calm := whole.calm
  have next := whole.first
  have last := whole.second
  rw [chunk] at calm delivered next last
  obtain ⟨rest, reads, left, calm⟩ := read_length delivered calm
  rw [reads] at next last
  obtain ⟨fuel, user', rest', first, calm', left', same⟩ := next.reads calm left c.user
  obtain ⟨fuel', pass', input, second, -, left'', same'⟩ :=
    (last fuel user' rest' (first 0)).reads calm' left' c.pass
  refine ⟨fuel + fuel', input, fun k => Connection.takes_some.mpr ⟨registers, user', pass',
    ?_, ?_⟩, left''⟩
  · refine ⟨[], rest, rest', by rw [chunk, reads], ?_, ?_⟩
    · rw [Nat.add_assoc]
      exact first _
    · rw [Nat.add_comm fuel, Nat.add_assoc]
      exact second _
  · rw [same, same']

/-- The client program is started with the strings of a LOGIN or a REGISTER command exactly when the
connection has sent that command, and what follows it on the connection is left for the player. -/
theorem Connection.commanded_iff (whole : c.Whole) (args : Client.ClientArgs) (more : List UInt8) :
    (∃ fuel input, (∀ k, c.takes (fuel + k) = some (args, input)) ∧ bytesOf input = more) ↔
      ∃ message, bytesOf c.stream = message.encode ++ more ∧ argsOf message = some args := by
  constructor
  · rintro ⟨fuel, input, takes, rfl⟩
    exact whole.sent (takes 0)
  · rintro ⟨message, delivered, asks⟩
    exact whole.takes delivered asks

end Connections

/-- A connection that logs in as -r, with one byte for the game behind that. -/
def dashed : Connection where
  stream := [piece 0 [2, 45, 114, 1, 99, 2]]
  user _ := 7
  pass _ := 7
  execs := true
  opened := true

/-- It sends all at once. -/
theorem dashed_whole : dashed.Whole where
  calm errno member := by
    rw [dashed, List.mem_singleton] at member
    cases member
  starts _ := ⟨_, _, rfl⟩
  first len string same := by
    cases same
    exact ⟨⟨_, _, rfl⟩, by decide⟩
  second fuel user rest returns := by
    have once : readString 2 dashed.user (read 1 dashed.stream).2 =
        some (0, _, [piece 1 [99, 2]]) := rfl
    cases readString_unique returns once
    intro len string same
    cases same
    exact ⟨⟨_, _, rfl⟩, by decide⟩

/-- The name is no option, and the last byte is left for the player. -/
theorem commanded_iff_dashed :
    (∃ fuel input, (∀ k, dashed.takes (fuel + k) =
        some (clientArgs (Users.cString [45, 114]) (Users.cString [99]) false, input)) ∧
      bytesOf input = [2]) ↔
      ∃ message, bytesOf dashed.stream = message.encode ++ [2] ∧
        argsOf message = some (clientArgs (Users.cString [45, 114]) (Users.cString [99]) false) :=
  Connection.commanded_iff dashed_whole _ _

end Chessh.Frontends
