import Chessh.Wire.SelfDelimiting

/-!
# Messages

The commands of `api.txt`: the byte that names a command, and the bytes of its arguments.
-/

namespace Wire

/-- The commands. -/
inductive Command
  | login
  | makeMove
  | getBoard
  | getValidMoves
  | initGame
  | boardInfo
  | moveInfo
  | notify
  | register
  | authResponse
  deriving DecidableEq

/-- The byte of a command. -/
def Command.byte : Command → UInt8
  | .login => 0x00
  | .makeMove => 0x01
  | .getBoard => 0x02
  | .getValidMoves => 0x03
  | .initGame => 0x04
  | .boardInfo => 0x05
  | .moveInfo => 0x06
  | .notify => 0x07
  | .register => 0x08
  | .authResponse => 0x09

/-- What a client can be notified of. -/
inductive Notice
  | drawOffer
  | whiteWins
  | blackWins
  | forcedDraw
  | internalServerError
  | yourTurn
  | illegalMove
  | moveNeedsPromotion
  deriving DecidableEq

/-- The byte of a notification. -/
def Notice.byte : Notice → UInt8
  | .drawOffer => 0x00
  | .whiteWins => 0x01
  | .blackWins => 0x02
  | .forcedDraw => 0x03
  | .internalServerError => 0x04
  | .yourTurn => 0x05
  | .illegalMove => 0x06
  | .moveNeedsPromotion => 0x07

/-- The answers to an authentication. -/
inductive AuthCode
  | registered
  | notRegistered
  | authenticated
  | notAuthenticated
  deriving DecidableEq

/-- The byte of an answer. -/
def AuthCode.byte : AuthCode → UInt8
  | .registered => 0x00
  | .notRegistered => 0x01
  | .authenticated => 0x80
  | .notAuthenticated => 0x81

/-- A string: its length fits a byte. -/
abbrev Text := { bytes : List UInt8 // bytes.length < 256 }

/-- A move: the byte of its start and the byte of its end. -/
abbrev MovePair := UInt8 × UInt8

/-- A board: sixty-four half-bytes. -/
abbrev BoardBytes := { bytes : List UInt8 // bytes.length = 32 }

/-- A list of moves: its length fits a word. -/
abbrev MoveList := { moves : List MovePair // moves.length < 65536 }

/-- A command with its arguments. -/
inductive Message
  | login (username password : Text)
  | makeMove (move : MovePair)
  | getBoard
  | getValidMoves
  | initGame (player : UInt8)
  | boardInfo (board : BoardBytes)
  | moveInfo (moves : MoveList)
  | notify (notice : Notice)
  | register (username password : Text)
  | authResponse (code : AuthCode) (response : Text)

/-- A byte that counts. -/
def countByte (n : Nat) : List UInt8 := [UInt8.ofNat n]

/-- A word in network order. -/
def wordBytes (n : Nat) : List UInt8 := [UInt8.ofNat (n / 256), UInt8.ofNat n]

/-- The bytes of a string. -/
def textBytes (text : Text) : List UInt8 := countByte text.val.length ++ text.val

/-- The bytes of a move. -/
def moveBytes (move : MovePair) : List UInt8 := [move.1, move.2]

namespace Message

/-- The command of a message. -/
def command : Message → Command
  | login _ _ => .login
  | makeMove _ => .makeMove
  | getBoard => .getBoard
  | getValidMoves => .getValidMoves
  | initGame _ => .initGame
  | boardInfo _ => .boardInfo
  | moveInfo _ => .moveInfo
  | notify _ => .notify
  | register _ _ => .register
  | authResponse _ _ => .authResponse

/-- The bytes of the arguments. -/
def arguments : Message → List UInt8
  | login username password | register username password => textBytes username ++ textBytes password
  | makeMove move => moveBytes move
  | getBoard | getValidMoves => []
  | initGame player => [player]
  | boardInfo board => board.val
  | moveInfo moves => wordBytes moves.val.length ++ moves.val.flatMap moveBytes
  | notify notice => [notice.byte]
  | authResponse code response => code.byte :: textBytes response

/-- The bytes of a message. -/
def encode (message : Message) : List UInt8 := message.command.byte :: message.arguments

end Message

/-! ## Reading messages -/

/-- No two commands share a byte. -/
theorem Command.byte_injective : Function.Injective Command.byte := by
  intro a b same
  cases a <;> cases b <;> first | rfl | exact absurd same (by decide)

/-- No two notifications share a byte. -/
theorem Notice.byte_injective : Function.Injective Notice.byte := by
  intro a b same
  cases a <;> cases b <;> first | rfl | exact absurd same (by decide)

/-- No two answers share a byte. -/
theorem AuthCode.byte_injective : Function.Injective AuthCode.byte := by
  intro a b same
  cases a <;> cases b <;> first | rfl | exact absurd same (by decide)

/-- A byte tells numbers below 256 apart. -/
theorem countByte_selfDelimiting : SelfDelimiting fun n : Fin 256 => countByte n := by
  refine SelfDelimiting.letter.comap fun a b same => ?_
  have counts := congrArg UInt8.toNat same
  simp only [UInt8.toNat_ofNat', Nat.reducePow] at counts
  omega

/-- A word tells numbers below 65536 apart. -/
theorem wordBytes_selfDelimiting : SelfDelimiting fun n : Fin 65536 => wordBytes n := by
  intro a b s t same
  obtain ⟨high, same⟩ := List.cons.inj same
  obtain ⟨low, rest⟩ := List.cons.inj same
  have highs := congrArg UInt8.toNat high
  have lows := congrArg UInt8.toNat low
  simp only [UInt8.toNat_ofNat', Nat.reducePow] at highs lows
  exact ⟨by omega, rest⟩

/-- A string ends where its length says. -/
theorem textBytes_selfDelimiting : SelfDelimiting textBytes := by
  intro a b s t same
  apply SelfDelimiting.letter.counted countByte_selfDelimiting
  simpa [textBytes] using same

/-- A move is two bytes. -/
theorem moveBytes_selfDelimiting : SelfDelimiting moveBytes :=
  SelfDelimiting.letter.pair SelfDelimiting.letter

/-- A list of moves ends where its count says. -/
theorem moveList_selfDelimiting :
    SelfDelimiting fun moves : MoveList =>
      wordBytes moves.val.length ++ moves.val.flatMap moveBytes :=
  moveBytes_selfDelimiting.counted wordBytes_selfDelimiting

/-- Two strings end where their lengths say. -/
theorem texts_selfDelimiting :
    SelfDelimiting fun texts : Text × Text => textBytes texts.1 ++ textBytes texts.2 :=
  textBytes_selfDelimiting.pair textBytes_selfDelimiting

namespace Message

/-- The arguments of a command end where the command says. -/
theorem arguments_selfDelimiting {a b : Message} {s t : List UInt8} (same : a.command = b.command)
    (bytes : a.arguments ++ s = b.arguments ++ t) : a = b ∧ s = t := by
  cases a with
  | login username password =>
    cases b with
    | login username' password' =>
      obtain ⟨texts, rest⟩ :=
        @texts_selfDelimiting (username, password) (username', password') _ _ bytes
      cases texts
      exact ⟨rfl, rest⟩
    | _ => cases same
  | makeMove move =>
    cases b with
    | makeMove move' =>
      obtain ⟨rfl, rest⟩ := moveBytes_selfDelimiting bytes
      exact ⟨rfl, rest⟩
    | _ => cases same
  | getBoard =>
    cases b with
    | getBoard => exact ⟨rfl, bytes⟩
    | _ => cases same
  | getValidMoves =>
    cases b with
    | getValidMoves => exact ⟨rfl, bytes⟩
    | _ => cases same
  | initGame player =>
    cases b with
    | initGame player' =>
      obtain ⟨rfl, rest⟩ := SelfDelimiting.letter bytes
      exact ⟨rfl, rest⟩
    | _ => cases same
  | boardInfo board =>
    cases b with
    | boardInfo board' =>
      obtain ⟨rfl, rest⟩ := SelfDelimiting.fixed 32 bytes
      exact ⟨rfl, rest⟩
    | _ => cases same
  | moveInfo moves =>
    cases b with
    | moveInfo moves' =>
      obtain ⟨rfl, rest⟩ := moveList_selfDelimiting bytes
      exact ⟨rfl, rest⟩
    | _ => cases same
  | notify notice =>
    cases b with
    | notify notice' =>
      obtain ⟨rfl, rest⟩ := SelfDelimiting.letter.comap Notice.byte_injective bytes
      exact ⟨rfl, rest⟩
    | _ => cases same
  | register username password =>
    cases b with
    | register username' password' =>
      obtain ⟨texts, rest⟩ :=
        @texts_selfDelimiting (username, password) (username', password') _ _ bytes
      cases texts
      exact ⟨rfl, rest⟩
    | _ => cases same
  | authResponse code response =>
    cases b with
    | authResponse code' response' =>
      obtain ⟨codes, texts⟩ := List.cons.inj bytes
      obtain ⟨rfl, rest⟩ := textBytes_selfDelimiting texts
      obtain rfl := AuthCode.byte_injective codes
      exact ⟨rfl, rest⟩
    | _ => cases same

/-- A message ends where its command and arguments say. -/
theorem encode_selfDelimiting : SelfDelimiting encode := by
  intro a b s t same
  obtain ⟨commands, bytes⟩ := List.cons.inj same
  exact arguments_selfDelimiting (Command.byte_injective commands) bytes

/-- What bytes say as a sequence of messages, they say in one way only. -/
theorem flatMap_encode_injective : Function.Injective (List.flatMap encode) :=
  encode_selfDelimiting.flatMap_injective fun _ => List.cons_ne_nil _ _

end Message

end Wire
