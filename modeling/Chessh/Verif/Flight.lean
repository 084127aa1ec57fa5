import Chessh.Verif.Parting

/-!
# One move in flight

`parse_op_move` takes what one read returns for one move. It may do so since the two clients
take turns: each derives whose turn it is from its own game, and the games differ by at most
the move that is under way, `Execution.one_in_flight`.
-/

namespace Chessh

/-- The messages in a pipe; each ends with its NUL. -/
def messages (pipe : List Char) : Nat := pipe.count nul

/-- A client names a move for which `get_player_move` writes a message. -/
def Writes (s : System) (i : Fin 2) (event : Event) : Prop :=
  ∃ c₁ c₂ code after, event = .names i c₁ c₂ ∧ Returns (s.game i) (apiGetMove c₁ c₂) code after ∧
    0 ≤ code

/-! ## Texts -/

/-- The text of a move holds no NUL. -/
theorem nul_notMem_apiText (c₁ c₂ : UInt8) : nul ∉ apiText c₁ c₂ := by
  intro mem
  have text : cString (apiText c₁ c₂ ++ [nul]) = apiText c₁ c₂ :=
    (apiGetMove_sendable c₁ c₂).message.2.2
  rw [← text] at mem
  have kept := List.all_eq_true.mp List.all_takeWhile nul mem
  simp at kept

/-- The text of a move and its NUL are one message. -/
theorem messages_apiText (c₁ c₂ : UInt8) : messages (apiText c₁ c₂ ++ [nul]) = 1 := by
  rw [messages, List.count_append, List.count_eq_zero_of_not_mem (nul_notMem_apiText c₁ c₂)]
  rfl

/-! ## Histories -/

section Histories

variable {start s next : System} {history : List (System × Event)} {event : Event} {i : Fin 2}

/-- A client that is running has been running. -/
theorem Step.running (step : Step s event next) (running : next.ended i = none) :
    s.ended i = none := by
  -- an end that is given is given to a client that was running
  have update : ∀ {j : Fin 2} {msg : Option EndMsg}, s.ended j = none →
      Function.update s.ended j msg i = none → s.ended i = none := by
    intro j msg run kept
    by_cases same : i = j
    · rw [same]
      exact run
    · rwa [Function.update_of_ne same] at kept
  cases step with
  | refused run => exact running
  | decided run | written run | lost run | hungUp run | read run | eof run =>
    exact update run running

/-- Clients that are running at the end were running at every moment. -/
theorem Execution.running (exec : Execution start history s) (running : s.ended i = none) :
    ∀ moment ∈ history, moment.1.ended i = none := by
  induction exec with
  | start => simp
  | step exec step ih =>
    have before := step.running running
    intro moment mem
    rcases List.mem_append.mp mem with earlier | last
    · exact ih before moment earlier
    · rw [List.mem_singleton.mp last]
      exact before

/-- An execution goes through every moment of its history. -/
theorem Execution.split {before after : List (System × Event)} {moment : System × Event}
    (exec : Execution start (before ++ moment :: after) s) :
    ∃ mid, Execution start before moment.1 ∧ Step moment.1 moment.2 mid ∧
      Execution mid after s := by
  generalize whole : before ++ moment :: after = history at exec
  induction exec generalizing after with
  | start => simp at whole
  | @step history s event next exec step ih =>
    rcases List.eq_nil_or_concat after with none_after | ⟨earlier, last, more⟩
    · rw [none_after] at whole
      obtain ⟨same, only⟩ := List.append_inj' whole rfl
      cases only
      rw [same, none_after]
      exact ⟨next, exec, step, .start⟩
    · rw [more, List.concat_eq_append] at whole
      have shape : (before ++ moment :: earlier) ++ [last] = history ++ [(s, event)] := by
        rw [← whole, List.append_assoc, List.cons_append]
      obtain ⟨same, only⟩ := List.append_inj' shape rfl
      cases only
      obtain ⟨mid, first, there, rest⟩ := ih same
      rw [more, List.concat_eq_append]
      exact ⟨mid, first, there, rest.step step⟩

/-- A client whose turn it is not waits until it reads. -/
theorem Step.waits (step : Step s event next) (waiting : currPlayer (s.game i) ≠ i)
    (other : event ≠ .reads i) : currPlayer (next.game i) ≠ i := by
  -- whoever moves, it is another client
  have update : ∀ {j : Fin 2} {after : Game}, j ≠ i →
      currPlayer (Function.update s.game j after i) ≠ i := by
    intro j after different
    rwa [Function.update_of_ne different.symm]
  cases step with
  | @refused j _ _ _ _ _ turn | @decided j _ _ _ _ _ turn | @written j _ _ _ _ _ turn
  | @lost j _ _ _ _ _ turn =>
    refine update fun same => waiting ?_
    rw [← same]
    exact turn
  | hungUp => exact waiting
  | @read j | @eof j =>
    refine update fun same => other ?_
    rw [same]

/-- A client whose turn it is not waits as long as it does not read. -/
theorem Execution.waits (exec : Execution start history s)
    (waiting : currPlayer (start.game i) ≠ i) (other : ∀ moment ∈ history, moment.2 ≠ .reads i) :
    currPlayer (s.game i) ≠ i := by
  induction exec with
  | start => exact waiting
  | step exec step ih =>
    have earlier := ih fun moment mem => other moment (List.mem_append_left _ mem)
    exact step.waits earlier (other _ (List.mem_append_right _ List.mem_cons_self))

/-- A client names moves only when it is its turn. -/
theorem Step.turn {c₁ c₂ : UInt8} (step : Step s (.names i c₁ c₂) next) :
    currPlayer (s.game i) = i := by
  cases step with
  | refused _ turn | decided _ turn | written _ turn | lost _ turn => exact turn

/-- After its message has been written, a client waits. -/
theorem Step.wrote (sound : Sound (s.game i)) (writes : Writes s i event)
    (step : Step s event next) : currPlayer (next.game i) ≠ i := by
  obtain ⟨c₁, c₂, code, after, named, returns, nonneg⟩ := writes
  have turn : currPlayer (s.game i) = i := by
    rw [named] at step
    exact step.turn
  have waits : currPlayer after = peer i := by
    rw [currPlayer_succ (returns.turn sound (accepted_of_nonneg nonneg)), turn]
  -- the game of the client is the one after the move
  have result : next.game i = after := by
    rw [named] at step
    cases step with
    | @refused _ _ _ code' _ _ _ tries | @decided _ _ _ code' _ _ _ tries
    | @written _ _ _ code' _ _ _ tries | @lost _ _ _ code' _ _ _ tries =>
      rw [(returns.unique (tryMove_yields.mp tries)).2]
      exact update_self _ _ _
  rw [result, waits]
  exact peer_ne i

end Histories

/-! ## The theorem -/

section Flight

variable {memory : Fin 2 → Game} {history : List (System × Event)} {s : System}

/-- While both clients are running their games are sound. -/
theorem Phase.sound {Fine : EndMsg → Prop} (phase : Phase SameTurns Fine s)
    (running : ∀ i, s.ended i = none) (i : Fin 2) : Sound (s.game i) := by
  cases phase with
  | idle related => exact (related i).1
  | sent j c₁ c₂ before code related turn returns =>
    rcases eq_or_peer j i with rfl | rfl
    · exact (returns.made related.1).sound related.1
    · exact related.2.1
  | parted j msg ended =>
    rw [running] at ended
    cases ended

/-- The pipes hold as many messages as the games differ in turns, and at most one. -/
theorem Phase.in_flight {Fine : EndMsg → Prop} (phase : Phase SameTurns Fine s)
    (running : ∀ i, s.ended i = none) :
    messages (s.pipe 0) + messages (s.pipe 1) ≤ 1 ∧
      ((s.game 0).duration - (s.game 1).duration).natAbs =
        messages (s.pipe 0) + messages (s.pipe 1) := by
  cases phase with
  | idle related run drained =>
    have turns : (s.game 0).duration = (s.game 1).duration := (related 0).2.2
    rw [drained 0, drained 1, turns]
    exact ⟨Nat.zero_le 1, by simp [messages]⟩
  | sent i c₁ c₂ before code related turn returns nonneg run drained message =>
    have ahead := returns.turn related.1 (accepted_of_nonneg nonneg)
    rw [related.2.2] at ahead
    have written : messages (s.pipe (peer i)) = 1 := by
      rw [message, messages_apiText]
    have empty : messages (s.pipe i) = 0 := by
      rw [drained]
      rfl
    have sides : ∀ j : Fin 2, j = 0 ∨ j = 1 := by
      decide
    rcases sides i with rfl | rfl
    · have first : messages (s.pipe 1) = 1 := written
      have second : (s.game 0).duration = (s.game 1).duration + 1 := ahead
      omega
    · have first : messages (s.pipe 0) = 1 := written
      have second : (s.game 1).duration = (s.game 0).duration + 1 := ahead
      omega
  | parted i msg ended =>
    rw [running] at ended
    cases ended

/-- A read takes one message, and the pipe is empty afterwards. -/
theorem Phase.reads_one {Fine : EndMsg → Prop} (phase : Phase SameTurns Fine s)
    (running : ∀ i, s.ended i = none) {i : Fin 2} {next : System} (step : Step s (.reads i) next) :
    ∃ c₁ c₂, (s.pipe i).take buffSize = apiText c₁ c₂ ++ [nul] ∧ nul ∉ apiText c₁ c₂ ∧
      next.pipe i = [] := by
  cases step with
  | eof run waiting drained gone => exact absurd (running _) gone
  | read run waiting filled =>
    cases phase with
    | idle related run drained => exact absurd (drained i) filled
    | parted j msg ended =>
      rw [running] at ended
      cases ended
    | sent j c₁ c₂ before code related turn returns nonneg run drained message =>
      rcases eq_or_peer j i with rfl | rfl
      · exact absurd drained filled
      · refine ⟨c₁, c₂, ?_, nul_notMem_apiText c₁ c₂, ?_⟩
        · rw [message, (message_read c₁ c₂).1]
        · show Function.update s.pipe (peer j) ((s.pipe (peer j)).drop buffSize) (peer j) = []
          rw [update_self, message, (message_read c₁ c₂).2]

/-- While both clients are in the loop, whatever their players have tried, at most one message
is under way, and the games differ by as many turns as messages are under way. Between two
messages that a client writes it has read, and a read takes exactly one message. -/
theorem Execution.one_in_flight (exec : Execution (System.start memory) history s)
    (running : ∀ i, s.ended i = none) :
    messages (s.pipe 0) + messages (s.pipe 1) ≤ 1 ∧
      ((s.game 0).duration - (s.game 1).duration).natAbs =
        messages (s.pipe 0) + messages (s.pipe 1) ∧
      (∀ i before first between event next, history = before ++ first :: between →
        Writes first.1 i first.2 → Writes s i event → Step s event next →
          ∃ moment ∈ between, moment.2 = .reads i) ∧
      ∀ i next, Step s (.reads i) next →
        ∃ c₁ c₂, (s.pipe i).take buffSize = apiText c₁ c₂ ++ [nul] ∧ nul ∉ apiText c₁ c₂ ∧
          next.pipe i = [] := by
  have flight := exec.turns.in_flight running
  refine ⟨flight.1, flight.2, ?_, fun i next step => exec.turns.reads_one running step⟩
  intro i before first between event next parts wrote writes step
  by_contra never
  have other : ∀ moment ∈ between, moment.2 ≠ .reads i :=
    fun moment mem reads => never ⟨moment, mem, reads⟩
  have ran : ∀ j, first.1.ended j = none := by
    intro j
    apply exec.running (running j) first
    rw [parts]
    exact List.mem_append_right _ List.mem_cons_self
  rw [parts] at exec
  obtain ⟨mid, reached, there, rest⟩ := exec.split
  have waiting := there.wrote (reached.turns.sound ran i) wrote
  obtain ⟨c₁, c₂, code, after, named, -⟩ := writes
  rw [named] at step
  exact rest.waits waiting other step.turn

end Flight

/-- After White's first move one message is under way. -/
theorem one_in_flight_opening :
    ∃ history s, Execution (System.start fun _ => blank) history s ∧ (∀ i, s.ended i = none) ∧
      messages (s.pipe 0) + messages (s.pipe 1) = 1 ∧
      ((s.game 0).duration - (s.game 1).duration).natAbs = 1 := by
  have sound := newGame_sound blank
  have code : (play (newGame blank) (apiGetMove 208 144)).1 = 0 := by decide +kernel
  have returns := sound.played (apiGetMove 208 144)
  rw [code] at returns
  have turn : currPlayer ((System.start fun _ => blank).game 0) = 0 := by decide
  have exec := Execution.start.step (Step.written rfl turn
    (tryMove_yields.mpr returns) le_rfl)
  have running :
    ∀ i, Function.update (System.start fun _ => blank).ended 0 (endMsg 0) i = none := by
    decide
  have flight := exec.one_in_flight running
  have sent : messages ([] : List Char) + messages ([] ++ apiText 208 144 ++ [nul]) = 1 :=
    messages_apiText 208 144
  exact ⟨_, _, exec, running, sent, flight.2.1.trans sent⟩

end Chessh
