import Chessh.Client.Course
import Chessh.Verif.Admission
import Chessh.Verif.Broadcast
import Chessh.Verif.Seats

/-!
# What is said on a connection

A connection of the TCP frontend from its first byte to its last: one reply to the command it starts
with, and behind a successful login the messages of a game. The connection is the standard error of
its child as well, so that the complaint of a child that does not find its daemon is sent to the
player; it is no message. `Reaches.converses`.
-/

namespace Wire

/-- Behind a message comes the byte of a command. -/
theorem Message.next_command {message : Message} {messages : List Message} {byte : UInt8}
    {rest : List UInt8} (same : messages.flatMap encode = message.encode ++ byte :: rest) :
    ∃ command : Command, command.byte = byte := by
  cases messages with
  | nil => exact absurd same (by simp [encode])
  | cons first later =>
    rw [List.flatMap_cons] at same
    obtain ⟨-, same⟩ := encode_selfDelimiting same
    cases later with
    | nil => cases same
    | cons second later =>
      obtain ⟨bytes, -⟩ := List.cons.inj same
      exact ⟨second.command, bytes⟩

end Wire

namespace Chessh

open Wire (Message Text)

/-! ## Waiting for the daemon -/

namespace Daemon

/-- A call of `recvfds` on a connection to the daemon: it is interrupted, or fails, or gets a set
that the daemon has sent. -/
inductive Gets (cs : List Call) (number : Descriptor → Int) (iobuf : UInt8)
    (attempt : Attempt) : Prop
  | interrupted (again : attempt.Interrupted)
  | failed (nothing : ∀ fds, (attempt.recvfds fds).result < 2)
      (final : ¬ (attempt.errno = eintr ∨ attempt.errno = eagain))
  | set (x : Delivery) (member : x ∈ deliveries cs) (install : Int → Int) (stale : Nat → Int)
      (same : attempt = .gets install stale (x.message number iobuf) attempt.errno)

/-- A client that starts has the number of a set. -/
theorem Run.awaited {os : List Outcome} {cs : List Call} {m : Matchmaker} (run : Run os cs m)
    {number : Descriptor → Int} {iobuf : UInt8} {attempts : List Attempt}
    {fds fds' : List Int} {pid : Int}
    (gets : ∀ attempt ∈ attempts, Gets cs number iobuf attempt) (array : fds.length = 2)
    (started : awaitStart fds attempts = some (.started fds' pid)) :
    ∃ x ∈ deliveries cs, pid = x.id := by
  induction attempts generalizing fds with
  | nil => cases started
  | cons attempt rest ih =>
    obtain ⟨first, later⟩ := List.forall_mem_cons.mp gets
    cases first with
    | interrupted again =>
      rw [awaitStart, if_pos (Or.inl (again.failed fds)), if_pos again.errno] at started
      exact ih later ((again.array fds).trans array) started
    | failed nothing final =>
      rw [awaitStart, if_pos (Or.inl (nothing fds)), if_neg final] at started
      cases started
    | set x member install stale same =>
      rw [same, awaitStart_gets install stale attempt.errno array iobuf
        (run.wired.2.1 x member).2.2 rest]
        at started
      cases started
      exact ⟨x, member, rfl⟩

end Daemon

/-! ## The client -/

namespace Client

/-- The client gets through to its daemon. -/
def Surroundings.Through (s : Surroundings) (path : List UInt8) : Prop :=
  s.frontend = true ∧ ¬ unixConnect s.socket s.connect path < 0

/-- What a client says that does not get through. -/
def Surroundings.complaint (s : Surroundings) (path : List UInt8) : List UInt8 :=
  if s.frontend = false then Users.ascii "Failed to initialize frontend, quitting\n"
  else unixConnectError s path

/-- What `run_client` writes on the bytes of its player, and how far it comes. -/
inductive Proceeds (cs : List Daemon.Call) (s : Surroundings) (path sent : List UInt8) :
    List UInt8 → Course → Prop
  /-- It does not find the daemon. -/
  | unreachable (cut : ¬ s.Through path) : Proceeds cs s path sent (s.complaint path) (.returned 1)
  /-- It waits for an opponent. -/
  | waits (through : s.Through path) (waiting : awaitStart s.fds s.attempts = none) :
      Proceeds cs s path sent [] .waits
  /-- The daemon is gone. -/
  | lost (through : s.Through path) (failed : awaitStart s.fds s.attempts = some .failed) :
      Proceeds cs s path sent [] (.returned 1)
  /-- It follows the contest of its player, with the number of a set that the daemon has sent. -/
  | game {fds heard} (player : Fin 2) (x : Daemon.Delivery) (through : s.Through path)
      (member : x ∈ Daemon.deliveries cs) (number : x.id = player)
      (started : awaitStart s.fds s.attempts = some (.started fds x.id))
      (umpired : Umpired s.outside player Rules.Contest.start sent s.reads heard) :
      Proceeds cs s path sent (bytes (.initGame (UInt8.ofNat player) :: heard)) (.returned 0)

section Clients

variable {cs : List Daemon.Call} {s : Surroundings} {path sent out : List UInt8} {course : Course}

/-- No command has the first byte of a complaint. -/
theorem Surroundings.complaint_strange (cut : ¬ s.Through path) :
    ∃ byte rest, s.complaint path = byte :: rest ∧
      ∀ command : Wire.Command, command.byte ≠ byte := by
  have strange : ∀ (byte : UInt8), 10 ≤ byte → ∀ command : Wire.Command, command.byte ≠ byte := by
    rintro byte high command rfl
    cases command <;> exact absurd high (by decide)
  unfold complaint
  split
  · exact ⟨70, _, rfl, strange 70 (by decide)⟩
  rename_i frontend
  have failed : unixConnect s.socket s.connect path < 0 := by
    by_contra found
    exact cut ⟨by simpa using frontend, found⟩
  unfold unixConnectError
  split
  · exact ⟨115, _, rfl, strange 115 (by decide)⟩
  rename_i socket
  split
  · rename_i connected
    rw [unixConnect, if_neg socket, if_pos connected] at failed
    exact absurd failed socket
  · exact ⟨99, _, rfl, strange 99 (by decide)⟩

/-- Behind the reply a client says nothing but messages, exactly when it gets through. -/
theorem Proceeds.intelligible_iff (proceeds : Proceeds cs s path sent out course)
    (reply : Message) :
    (∃ messages, bytes messages = reply.encode ++ out) ↔ s.Through path := by
  cases proceeds with
  | unreachable cut =>
    refine iff_of_false ?_ cut
    rintro ⟨messages, same⟩
    obtain ⟨byte, rest, shape, strange⟩ := Surroundings.complaint_strange cut
    rw [shape] at same
    obtain ⟨command, here⟩ := Message.next_command same
    exact strange command here
  | waits through | lost through =>
    exact iff_of_true ⟨[reply], by simp [bytes]⟩ through
  | game player x through =>
    exact iff_of_true ⟨reply :: _, List.flatMap_cons⟩ through

/-- `run_client` in whatever surroundings, with a daemon in any run. -/
theorem runClient_proceeds {os : List Daemon.Outcome} {m : Daemon.Matchmaker}
    (run : Daemon.Run os cs m)
    {number : Daemon.Descriptor → Int} {iobuf : UInt8} (clean : Unspilled s.memory)
    (array : s.fds.length = 2) (gets : ∀ attempt ∈ s.attempts, Daemon.Gets cs number iobuf attempt)
    (path sent : List UInt8) :
    ∃ out course, (∀ depth turns, 0 < depth → sent.length + s.reads.length < turns →
        runClient depth turns s path sent = some (out, course)) ∧
      Proceeds cs s path sent out course := by
  by_cases frontend : s.frontend = false
  · refine ⟨_, _, fun depth turns _ _ => ?_, .unreachable fun through => ?_⟩
    · rw [runClient, if_pos frontend, Surroundings.complaint, if_pos frontend]
    · exact absurd (through.1.symm.trans frontend) (by decide)
  by_cases failed : unixConnect s.socket s.connect path < 0
  · refine ⟨_, _, fun depth turns _ _ => ?_, .unreachable fun through => through.2 failed⟩
    rw [runClient, if_neg frontend, if_pos failed, Surroundings.complaint, if_neg frontend]
    rfl
  have through : s.Through path := ⟨by simpa using frontend, failed⟩
  cases started : awaitStart s.fds s.attempts with
  | none =>
    refine ⟨_, _, fun depth turns _ _ => ?_, .waits through started⟩
    rw [runClient, if_neg frontend, if_neg failed, started]
    rfl
  | some start =>
    cases start with
    | failed =>
      refine ⟨_, _, fun depth turns _ _ => ?_, .lost through started⟩
      rw [runClient, if_neg frontend, if_neg failed, started]
      rfl
    | started fds pid =>
      obtain ⟨x, member, rfl⟩ := run.awaited gets array started
      obtain ⟨player, seat, same⟩ : ∃ player : Fin 2, playerOf x.id = some player ∧
        x.id = player := by
        rcases (run.wired.2.1 x member).2.2 with zero | one
        · exact ⟨0, by rw [zero]; rfl, zero⟩
        · exact ⟨1, by rw [one]; rfl, one⟩
      obtain ⟨heard, hears, umpired⟩ := gameLoop_broadcasts clean s.outside player
        (sent.length + s.reads.length + 1) _ _ _ sent s.reads .start (newGame_stands s.memory)
        (Nat.lt_succ_self _)
      refine ⟨_, _, fun depth turns deep long => ?_,
        .game player x through member same started umpired⟩
      rw [runClient, if_neg frontend, if_neg failed, started]
      dsimp only
      rw [seat, Option.bind_eq_bind, Option.bind_some, hears.runs deep long]
      rfl

end Clients

end Client

/-! ## The connection -/

namespace Frontends

open Client (Course Surroundings Proceeds)
open Program (World)
open Shared (sockPath)
open Users (CString Request)

/-- Where a child looks for the daemon. -/
def serverPath : List UInt8 := sockPath (Users.ascii "/chessh-server")

/-- All that is sent on a connection that asks for something, and how far its child comes. -/
inductive Exchange (cs : List Daemon.Call) (s : Surroundings) (sent : List UInt8) :
    Request → List UInt8 → Course → Prop
  | registered {user pass} (text : Text) :
    Exchange cs s sent (.register user pass) (Message.authResponse .registered text).encode
      (.returned 0)
  | notRegistered {user pass status} (text : Text) (failed : status ≠ 0) :
    Exchange cs s sent (.register user pass) (Message.authResponse .notRegistered text).encode
      (.returned status)
  | refused {user pass} (text : Text) :
    Exchange cs s sent (.validate user pass) (Message.authResponse .notAuthenticated text).encode
      (.returned 1)
  /-- The player is let in. -/
  | admitted {user pass out course} (text : Text)
      (proceeds : Proceeds cs s serverPath sent out course) :
    Exchange cs s sent (.validate user pass)
      ((Message.authResponse .authenticated text).encode ++ out)
      course

/-- What holds of all that is said on a connection whose child has come to this. -/
structure Conversed (fuel : Nat) (cs : List Daemon.Call) (s : Surroundings) (w : Server) (i : Nat)
    (c : Connection) (fate : Fate) : Prop where
  /-- A connection that asks for nothing is sent nothing. -/
  silent : c.asks fuel = none → ∃ course,
    ∀ depth turns, w.sends depth turns i s fate = some ([], course)
  /-- One that asks for something is sent what belongs to it, and it is all messages exactly when
  the player has not been let in or the child gets through to the daemon. -/
  answered : ∀ request input, c.asks fuel = some (request, input) → ∃ out course,
    (∀ depth turns, 0 < depth → (stdin input).length + s.reads.length < turns →
      w.sends depth turns i s fate = some (out, course)) ∧
    Exchange cs s (stdin input) request out course ∧
    ((∃ messages, bytes messages = out) ↔ ∀ path left, fate = .plays path left → s.Through path)
  /-- If it comes in one piece, it has sent the command it is answered to, and then what the player
  sends. -/
  asked : ∀ request input, c.asks fuel = some (request, input) → c.Whole →
    Asked c.stream input request

section Connections

variable {crypt : CString → CString → Option CString} {fuel i : Nat} {w : Server} {c : Connection}
  {fate : Fate} {s : Surroundings} {os : List Daemon.Outcome} {cs : List Daemon.Call}
  {m : Daemon.Matchmaker} {number : Daemon.Descriptor → Int} {iobuf : UInt8}

/-- A child that is to register a name sends the reply, and returns. -/
theorem exchange_register {sent : List UInt8} {user pass : CString} {result : Int}
    (replied : Users.Replied (w.own i) .registered .notRegistered (result = 0)) :
    ∃ out course, (∀ depth turns, w.sends depth turns i s (.exited result) = some (out, course)) ∧
      Exchange cs s sent (.register user pass) out course ∧ ∃ messages, bytes messages = out := by
  obtain ⟨code, text, written, either, told⟩ := replied
  refine ⟨_, .returned result, fun depth turns => ?_, ?_, [.authResponse code text],
    List.flatMap_singleton ..⟩
  · rw [Server.sends, written]
  · rcases either with rfl | rfl
    · rw [told.mp rfl]
      exact .registered text
    · exact .notRegistered text fun zero => absurd (told.mpr zero) (by decide)

/-- A child that is to log in sends the reply, and then the client runs if it is let in. -/
theorem exchange_validate {user pass : CString} {result : Int} {input : List Arrival}
    (run : Daemon.Run os cs m) (clean : Unspilled s.memory) (array : s.fds.length = 2)
    (gets : ∀ attempt ∈ s.attempts, Daemon.Gets cs number iobuf attempt)
    (replied : Users.Replied (w.own i) .authenticated .notAuthenticated (result ≠ 0)) :
    ∃ out course, (∀ depth turns, 0 < depth → (stdin input).length + s.reads.length < turns →
        w.sends depth turns i s (fateOf input (.validate user pass) result) = some (out, course)) ∧
      Exchange cs s (stdin input) (.validate user pass) out course ∧
      ((∃ messages, bytes messages = out) ↔
        ∀ path left, fateOf input (.validate user pass) result = .plays path left →
          s.Through path) := by
  obtain ⟨code, text, written, either, told⟩ := replied
  rcases either with rfl | rfl
  · have admitted := told.mp rfl
    obtain ⟨out, course, runs, proceeds⟩ :=
      Client.runClient_proceeds run clean array gets serverPath (stdin input)
    have fated : fateOf input (.validate user pass) result = .plays serverPath input :=
      if_pos admitted
    rw [fated]
    refine ⟨_, _, fun depth turns deep long => ?_, .admitted text proceeds, ?_⟩
    · rw [Server.sends, runs depth turns deep long, written]
      rfl
    · rw [proceeds.intelligible_iff]
      constructor
      · intro through path left same
        cases same
        exact through
      · exact fun through => through _ _ rfl
  · have refused : ¬ result ≠ 0 := fun admitted => absurd (told.mpr admitted) (by decide)
    have fated : fateOf input (.validate user pass) result = .exited 1 := if_neg refused
    rw [fated]
    refine ⟨_, _, fun depth turns _ _ => ?_, .refused text, ?_⟩
    · rw [Server.sends, written]
    · refine iff_of_true ⟨[.authResponse .notAuthenticated text], List.flatMap_singleton ..⟩ ?_
      intro path left same
      cases same

end Connections

/-- What a client meets that is interrupted once and then sent the first set of a greeting. -/
def greeted : Surroundings where
  frontend := true
  socket := 3
  connect _ := true
  strerror := []
  fds := [0, 0]
  attempts := [⟨fun fds => ⟨-1, fds, [], none⟩, eintr⟩, .gets (· + 1) (fun _ => 0)
    (Daemon.Delivery.message Daemon.numbered 0
      ⟨some (.connection 0), (.readEnd 0, .writeEnd 1), 0⟩) 0]
  memory := blank
  outside := quietOutside
  reads := []

end Frontends

end Chessh
