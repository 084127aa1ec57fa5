import Chessh.Verif.Registry
import Chessh.Verif.Requests

/-!
# Who may play

Any number of connections of the TCP frontend take turns on the database. Nobody plays without a
name and a password that another connection has registered before: `Reaches.guarded`. A world of
connections mirrors a world of calls of `users.c`, where a connection that asks for nothing stands
for a call that makes no step.
-/

namespace Chessh.Frontends

open Program
open Users (CString Request Replied Serves newUser)
open Wire (Message)
open Shared (sockPath)

/-! ## What a connection asks for -/

/-- What the client program asks of `users.c`. -/
def requestOf (args : Client.ClientArgs) : Request :=
  if args.registerUser then
    .register (Users.cString (args.user.getD [])) (Users.cString (args.pass.getD []))
  else .validate (Users.cString (args.user.getD [])) (Users.cString (args.pass.getD []))

/-- What a connection asks for, and what is left to arrive, when the child gets as far as to ask
`users.c`: the command and the two strings have come, `execl` has started the client program and the
database is open. The others ask for nothing here, also when they have sent a whole command. -/
def Connection.asks (fuel : Nat) (c : Connection) : Option (Request × List Arrival) :=
  if c.execs = true ∧ c.opened = true then
    (c.takes fuel).map fun taken => (requestOf taken.1, taken.2)
  else none

/-- What becomes of the child when its request is answered. -/
def fateOf (input : List Arrival) : Request → Int → Fate
  | .register _ _, result => .exited result
  | .validate _ _, result =>
    if result ≠ 0 then .plays (sockPath (Users.ascii "/chessh-server")) input else .exited 1

/-- The message that asks for it. -/
def Asked (stream input : List Arrival) : Request → Prop
  | .register user pass => ∃ name password, bytesOf stream =
      (Message.register name password).encode ++ bytesOf input ∧
      user = Users.cString name.val ∧ pass = Users.cString password.val
  | .validate user pass => ∃ name password, bytesOf stream =
      (Message.login name password).encode ++ bytesOf input ∧
      user = Users.cString name.val ∧ pass = Users.cString password.val

section Children

variable {crypt : CString → CString → Option CString} {fuel : Nat} {c : Connection}
  {request : Request} {input : List Arrival} {args : Client.ClientArgs}

/-- A C string has no terminator inside. -/
theorem cString_val (text : CString) : Users.cString text.val = text := by
  apply Subtype.ext
  refine List.takeWhile_eq_self_iff.mpr fun byte member => decide_eq_true fun zero => ?_
  rw [zero] at member
  exact text.property member

/-- A request comes of a command. -/
theorem Connection.asks_some (asks : c.asks fuel = some (request, input)) :
    c.execs = true ∧ c.opened = true ∧ ∃ registers user pass,
      Commanded fuel c.user c.pass c.stream registers user pass input ∧
      request = requestOf
        (clientArgs (Users.cString (List.ofFn user)) (Users.cString (List.ofFn pass))
          registers) := by
  unfold Connection.asks at asks
  split at asks
  · rename_i ready
    obtain ⟨⟨args, left⟩, takes, same⟩ := Option.map_eq_some_iff.mp asks
    cases same
    obtain ⟨registers, user, pass, commanded, rfl⟩ := Connection.takes_some.mp takes
    exact ⟨ready.1, ready.2, registers, user, pass, commanded, rfl⟩
  · cases asks

/-- A child that asks for something makes the operations of the request. -/
theorem Connection.program_asks (asks : c.asks fuel = some (request, input)) :
    c.program crypt fuel = request.program crypt >>= fun result =>
      pure (fateOf input request result) := by
  obtain ⟨execs, opened, registers, user, pass, commanded, rfl⟩ := Connection.asks_some asks
  have words := startClient_execs.mpr ⟨registers, user, pass, commanded, rfl⟩
  unfold Connection.program
  rw [words]
  dsimp only
  rw [if_pos execs, opened, Client.main, parseArgs_client]
  cases registers with
  | true => exact Prog.bind_assoc _ _ _
  | false =>
    refine (Prog.bind_assoc _ _ _).trans (Eq.trans ?_ (Prog.bind_assoc _ _ _).symm)
    refine congrArg (_ >>= ·) (funext fun valid => ?_)
    cases valid <;> rfl

/-- A child that asks for nothing makes no operation. -/
theorem Connection.program_silent (asks : c.asks fuel = none) :
    ∃ fate, c.program crypt fuel = .ret fate ∧ (fate = .reads ∨ fate = .exited 1) := by
  unfold Connection.program
  split
  · exact ⟨.reads, rfl, Or.inl rfl⟩
  · exact ⟨.exited 1, rfl, Or.inr rfl⟩
  · rename_i argv left words
    split
    · rename_i execs
      obtain ⟨registers, user, pass, commanded, rfl⟩ := startClient_execs.mp words
      have takes := Connection.takes_some.mpr ⟨registers, user, pass, commanded, rfl⟩
      have closed : c.opened = false := by
        by_contra opened
        rw [Connection.asks, if_pos ⟨execs, by simpa using opened⟩, takes] at asks
        cases asks
      rw [closed, Client.main, parseArgs_client]
      exact ⟨.exited 1, rfl, Or.inr rfl⟩
    · exact ⟨.exited 1, rfl, Or.inr rfl⟩

/-- The call that a connection stands for. -/
def Connection.call (fuel : Nat) (c : Connection) : Request :=
  match c.asks fuel with
  | some (request, _) => request
  | none => .register (Users.cString []) (Users.cString [])

/-- The fate of a child is that of its call, or it has none. -/
def Told (fuel : Nat) (c : Connection) (fate : Fate) (p : Users.Program Int) : Prop :=
  match c.asks fuel with
  | some (request, input) => ∃ result, p = .ret result ∧ fate = fateOf input request result
  | none => ∀ path input, fate ≠ .plays path input

/-- A password that a child can pass on. -/
def Passable (pass : CString) : Prop := pass.val.length ≤ 255

/-- The password of a call came in a string. -/
theorem Connection.call_passable (fuel : Nat) (c : Connection) :
    Passable (c.call fuel).password := by
  unfold Connection.call
  split
  · rename_i request input asks
    obtain ⟨-, -, registers, user, pass, commanded, rfl⟩ := Connection.asks_some asks
    have short := commanded.short
    cases registers with
    | true => rwa [← cString_val (Users.cString (List.ofFn pass))] at short
    | false => rwa [← cString_val (Users.cString (List.ofFn pass))] at short
  · exact Nat.zero_le _

/-- A child follows its call. -/
theorem Connection.follows (crypt : CString → CString → Option CString) (fuel : Nat)
    (c : Connection) :
    Prog.Follows (Told fuel c) (c.program crypt fuel) ((c.call fuel).program crypt) := by
  cases asks : c.asks fuel with
  | none =>
    obtain ⟨fate, silent, idle⟩ := @Connection.program_silent crypt fuel c asks
    rw [silent]
    refine .ret ?_
    rw [Told, asks]
    rintro path input rfl
    rcases idle with same | same <;> cases same
  | some taken =>
    obtain ⟨request, input⟩ := taken
    rw [Connection.program_asks asks, Connection.call, asks]
    refine .of_bind (fun result => ?_) _
    rw [Told, asks]
    exact ⟨result, rfl, rfl⟩

/-- A command that was sent in one piece is what its connection asks for. -/
theorem Connection.Whole.asked (whole : c.Whole) (asks : c.asks fuel = some (request, input)) :
    Asked c.stream input request := by
  unfold Connection.asks at asks
  split at asks
  · obtain ⟨⟨args, left⟩, takes, same⟩ := Option.map_eq_some_iff.mp asks
    cases same
    obtain ⟨message, delivered, args⟩ := whole.sent takes
    cases message with
    | login name password =>
      cases args
      exact ⟨name, password, delivered, cString_val _, cString_val _⟩
    | register name password =>
      cases args
      exact ⟨name, password, delivered, cString_val _, cString_val _⟩
    | _ => cases args
  · cases asks

end Children

/-! ## Any number of connections -/

/-- The child of the connection has come to this. -/
def Ended (w : Server) (i : Nat) (c : Connection) (fate : Fate) : Prop :=
  w.callers[i]? = some (c, .ret fate)

/-- What comes of a child whose request succeeds. -/
def Succeeded (input : List Arrival) : Request → Fate → Prop
  | .register _ _, fate => fate = .exited 0
  | .validate _ _, fate => fate = .plays (sockPath (Users.ascii "/chessh-server")) input

/-- What a child makes of the answer of the database when it has been asked to log in. A record that
is returned was put for another connection, which asked to register, and its password decides. -/
def Judged (crypt : CString → CString → Option CString) (fuel : Nat) (w : Server)
    (user pass : CString) (front : List (Nat × Interaction Users.Op.Answer)) (succeeded : Prop) :
    Except Users.DbError Users.ChesshUser → Prop
  | .error _ => ¬ succeeded
  | .ok _ => ∃ j c p pass' input salt hash, w.callers[j]? = some (c, p) ∧
      c.asks fuel = some (.register user pass', input) ∧
      (j, ⟨.put user.val (newUser user hash), (none : Option Users.DbError)⟩) ∈ front ∧
      Users.Drawn salt ∧ crypt pass' salt = some hash ∧ (succeeded ↔ crypt pass salt = some hash)

/-- What holds of the connections and the database at any time. -/
structure Guarded (crypt : CString → CString → Option CString) (fuel : Nat)
    (w : Server) : Prop where
  /-- Who plays has asked to log in. -/
  plays : ∀ i c path input, Ended w i c (.plays path input) → ∃ user pass,
    c.asks fuel = some (.validate user pass, input) ∧
      Succeeded input (.validate user pass) (.plays path input)
  /-- Who has asked to log in plays exactly when the database returns a record, and the password is
  that of the connection that has registered the name before. -/
  judged : ∀ i c fate user pass input, Ended w i c fate →
    c.asks fuel = some (.validate user pass, input) → ∃ answer front back,
      w.history = front ++ (i, ⟨.get user.val, answer⟩) :: back ∧
      Judged crypt fuel w user pass front (Succeeded input (.validate user pass) fate) answer
  /-- No name is registered twice. -/
  once : ∀ i j c c' user pass pass' input input', Ended w i c (.exited 0) →
    Ended w j c' (.exited 0) →
    c.asks fuel = some (.register user pass, input) →
    c'.asks fuel = some (.register user pass', input') → i = j
  /-- A connection that asks for something is sent one reply, which tells what comes of its
  child. -/
  replied : ∀ i c fate request input, Ended w i c fate → c.asks fuel = some (request, input) →
    Replied (w.own i) request.success request.failure (Succeeded input request fate)
  /-- A connection that asks for nothing is sent nothing, and the database is not touched for it. -/
  silent : ∀ i c p, w.callers[i]? = some (c, p) → c.asks fuel = none → w.own i = []
  /-- A connection that is sent in one piece has sent the command for what it asks. -/
  asked : ∀ (i : Nat) (c : Connection) p request input, w.callers[i]? = some (c, p) → c.Whole →
    c.asks fuel = some (request, input) → Asked c.stream input request
  /-- No child waits for the database, or for more than 25 operations. -/
  ends : ∀ i c p, w.callers[i]? = some (c, p) → (w.own i).length ≤ 25 ∧
    ∀ op next, p = .call op next → ∃ ans after, Serves w.shared ⟨op, ans⟩ after

section Worlds

variable {crypt : CString → CString → Option CString} {fuel i : Nat} {w : Server} {c : Connection}
  {request : Request} {input : List Arrival} {fate : Fate} {calls : Users.Calls}

/-- The fate of a child tells the result of its call. -/
theorem succeeded_iff (result : Int) :
    Succeeded input request (fateOf input request result) ↔ request.Succeeds result := by
  cases request with
  | register user pass => simp [Succeeded, fateOf, Request.Succeeds]
  | validate user pass =>
    by_cases zero : result = 0 <;> simp [Succeeded, fateOf, Request.Succeeds, zero]

/-- The events of a connection are those of its call. -/
theorem own_mirrored (mirrors : World.Mirrors (Told fuel) (Connection.call fuel) w calls)
    (i : Nat) :
    w.own i = calls.own i := by
  unfold World.own
  rw [mirrors.history]

/-- A connection that asks for nothing has no events, and its child has ended or waits for a
string. -/
theorem own_silent (reached : Reaches crypt fuel Server.start w) {p : Users.Program Fate}
    (entered : w.callers[i]? = some (c, p)) (asks : c.asks fuel = none) :
    w.own i = [] ∧ ∃ fate, p = .ret fate ∧ (fate = .reads ∨ fate = .exited 1) := by
  have path := Program.Reaches.path reached entered
  obtain ⟨fate, silent, idle⟩ := @Connection.program_silent crypt fuel c asks
  rw [silent] at path
  generalize w.own i = events at path
  cases path
  exact ⟨rfl, fate, rfl, idle⟩

/-- The call of a connection that has ended has returned. -/
theorem Ended.returned (ended : Ended w i c fate)
    (mirrors : World.Mirrors (Told fuel) (Connection.call fuel) w calls)
    (asks : c.asks fuel = some (request, input)) :
    ∃ result, Users.Returned calls i request result ∧ fate = fateOf input request result := by
  obtain ⟨q, here, following⟩ := mirrors.callers i c _ ended
  cases following with
  | ret told =>
    rw [Told, asks] at told
    obtain ⟨result, rfl, rfl⟩ := told
    rw [Connection.call, asks] at here
    exact ⟨result, here, rfl⟩

/-- A call that has put something is that of a connection that asked for it. -/
theorem asks_of_put (reached : Reaches crypt fuel Server.start w)
    (mirrors : World.Mirrors (Told fuel) (Connection.call fuel) w calls) {j : Nat}
    {request : Request}
    {rest : Users.Program Int} {e : Interaction Users.Op.Answer} (member : (j, e) ∈ calls.history)
    (entered : calls.callers[j]? = some (request, rest)) :
    ∃ c p input, w.callers[j]? = some (c, p) ∧ c.asks fuel = some (request, input) := by
  have inside : j < w.callers.length := by
    rw [mirrors.count]
    exact (List.getElem?_eq_some_iff.mp entered).1
  obtain ⟨⟨c, p⟩, here⟩ : ∃ caller, w.callers[j]? = some caller :=
    ⟨_, List.getElem?_eq_getElem inside⟩
  obtain ⟨q, calls', -⟩ := mirrors.callers j c p here
  rw [entered] at calls'
  cases asks : c.asks fuel with
  | none =>
    have nothing := (own_silent reached here asks).1
    have event : e ∈ w.own j := World.mem_own.mpr (mirrors.history ▸ member)
    rw [nothing] at event
    cases event
  | some taken =>
    obtain ⟨request', input⟩ := taken
    rw [Connection.call, asks] at calls'
    cases calls'
    exact ⟨c, p, input, here, asks⟩

/-- A connection that plays has asked to log in. -/
theorem Ended.login {path : List UInt8} (ended : Ended w i c (.plays path input))
    (mirrors : World.Mirrors (Told fuel) (Connection.call fuel) w calls) :
    ∃ user pass, c.asks fuel = some (.validate user pass, input) ∧
      Succeeded input (.validate user pass) (.plays path input) := by
  cases asks : c.asks fuel with
  | none =>
    obtain ⟨q, -, following⟩ := mirrors.callers i c _ ended
    cases following with
    | ret told =>
      rw [Told, asks] at told
      exact absurd rfl (told path input)
  | some taken =>
    obtain ⟨request, input'⟩ := taken
    obtain ⟨result, -, same⟩ := ended.returned mirrors asks
    cases request with
    | register user pass => cases same
    | validate user pass =>
      unfold fateOf at same
      dsimp only at same
      split at same
      · cases same
        exact ⟨user, pass, rfl, rfl⟩
      · cases same

/-- The passwords of the calls came in strings. -/
theorem calls_passable (mirrors : World.Mirrors (Told fuel) (Connection.call fuel) w calls) :
    calls.All Passable := by
  intro i request rest entered
  have inside : i < w.callers.length := by
    rw [mirrors.count]
    exact (List.getElem?_eq_some_iff.mp entered).1
  obtain ⟨⟨c, p⟩, here⟩ : ∃ caller, w.callers[i]? = some caller :=
    ⟨_, List.getElem?_eq_getElem inside⟩
  obtain ⟨q, calls', -⟩ := mirrors.callers i c p here
  rw [entered] at calls'
  cases calls'
  exact c.call_passable fuel

/-- A login has asked the database once, and is judged by the answer. -/
theorem Ended.judged {user pass : CString} (hashes : Users.Hashes crypt Passable)
    (reached : Reaches crypt fuel Server.start w)
    (reached' : Users.Reaches crypt Users.Calls.start calls)
    (mirrors : World.Mirrors (Told fuel) (Connection.call fuel) w calls) (ended : Ended w i c fate)
    (asks : c.asks fuel = some (.validate user pass, input)) : ∃ answer front back,
      w.history = front ++ (i, ⟨.get user.val, answer⟩) :: back ∧
      Judged crypt fuel w user pass front (Succeeded input (.validate user pass) fate) answer := by
  obtain ⟨result, returned, rfl⟩ := ended.returned mirrors asks
  obtain ⟨answer, front, back, split, answered⟩ :=
    returned.answered hashes (calls_passable mirrors) reached'
  refine ⟨answer, front, back, mirrors.history.trans split, ?_⟩
  have told := @succeeded_iff (.validate user pass) input result
  cases answer with
  | error code => exact told.not.mpr (not_not.mpr answered)
  | ok value =>
    obtain ⟨j, pass', rest, salt, hash, entered, put, drawn, hashed, judged⟩ := answered
    have member := split ▸ List.mem_append_left _ put
    obtain ⟨c', p, input', here, asks'⟩ := asks_of_put reached mirrors member entered
    exact ⟨j, c', p, pass', input', salt, hash, here, asks', put, drawn, hashed,
      told.trans judged⟩

/-- The reply to a request tells what comes of its child. -/
theorem Ended.replied (reached' : Users.Reaches crypt Users.Calls.start calls)
    (mirrors : World.Mirrors (Told fuel) (Connection.call fuel) w calls) (ended : Ended w i c fate)
    (asks : c.asks fuel = some (request, input)) :
    Replied (w.own i) request.success request.failure (Succeeded input request fate) := by
  obtain ⟨result, returned, rfl⟩ := ended.returned mirrors asks
  have done := returned.done reached'
  have told := @succeeded_iff request input result
  rw [own_mirrored mirrors, propext told]
  cases request with
  | register user pass => exact done.1
  | validate user pass => exact done.1

/-- A child is through after 25 operations, and the database serves each of them. -/
theorem served_within {p : Users.Program Fate} (hashes : Users.Hashes crypt Passable)
    (reached' : Users.Reaches crypt Users.Calls.start calls)
    (mirrors : World.Mirrors (Told fuel) (Connection.call fuel) w calls)
    (entered : w.callers[i]? = some (c, p)) : (w.own i).length ≤ 25 ∧
      ∀ op next, p = .call op next → ∃ ans after, Serves w.shared ⟨op, ans⟩ after := by
  obtain ⟨q, here, following⟩ := mirrors.callers i c p entered
  obtain ⟨count, fit⟩ := Users.Reaches.within hashes (calls_passable mirrors) reached' here
  rw [own_mirrored mirrors, mirrors.shared]
  refine ⟨count, ?_⟩
  rintro op next rfl
  cases following with
  | call each => exact Users.serves_defined (fit op _ rfl) calls.shared

end Worlds

/-- A connection on which all arrives at once. -/
def visit (command : UInt8) (others : List UInt8) : Connection where
  stream := [piece command others]
  user _ := 0
  pass _ := 0
  execs := true
  opened := true

end Chessh.Frontends
