import Chessh.Verif.Effect
import Chessh.Verif.Text

/-!
# The exchange of moves

At any time at most one text is under way, and only the client to move can name moves.
`Phase` lists the three situations the two clients can be in, for any relation between their
games that a `Link` keeps; `Phase.step` shows that no step leaves them. Whatever the games
are, a client that ends the game leaves the other one waiting at a pipe on which nothing more
will come: `Execution.result_alone`.
-/

namespace Chessh

/-! ## What a text does -/

/-- Results are unique. -/
theorem Yields.unique {f : Nat → Option (Int × Game)} {code code' : Int} {after after' : Game}
    (first : Yields f code after) (second : Yields f code' after') :
    code = code' ∧ after = after' := by
  obtain ⟨d, first⟩ := first
  obtain ⟨d', second⟩ := second
  have same := (first d').symm.trans ((congrArg f (Nat.add_comm d d')).trans (second d))
  simpa using same

/-- The code `parse_op_move` returns for a code of `make_move`. -/
def readCode (code : Int) : Int := if code < 0 then code else 0

section Texts

variable {g : Game} {c₁ c₂ : UInt8} {code : Int} {after : Game}

/-- Trying the text of a move is trying the move. -/
theorem tryMove_text :
    (fun depth => tryMove depth g (apiText c₁ c₂)) = fun depth =>
      makeMove depth g (apiGetMove c₁ c₂) := by
  funext depth
  rw [tryMove, apiText, (apiGetMove_sendable c₁ c₂).parseMove_text]

/-- A text that is tried is a call. -/
theorem tryMove_yields : Yields (fun depth => tryMove depth g (apiText c₁ c₂)) code after ↔
    Returns g (apiGetMove c₁ c₂) code after := by
  rw [tryMove_text]
  rfl

/-- The bytes of a message arrive in one read, and nothing is left. -/
theorem message_read (c₁ c₂ : UInt8) :
    (apiText c₁ c₂ ++ [nul]).take buffSize = apiText c₁ c₂ ++ [nul] ∧
      (apiText c₁ c₂ ++ [nul]).drop buffSize = [] := by
  have short : (apiText c₁ c₂ ++ [nul]).length ≤ buffSize :=
    (apiGetMove_sendable c₁ c₂).message.2.1.trans (by decide)
  exact ⟨List.take_of_length_le short, List.drop_of_length_le short⟩

/-- Reading a message is trying its move. -/
theorem parseOpMove_message (depth : Nat) :
    parseOpMove depth g (apiText c₁ c₂ ++ [nul]) =
      (makeMove depth g (apiGetMove c₁ c₂)).map fun (code, after) => (readCode code, after) := by
  obtain ⟨long, -, text⟩ := (apiGetMove_sendable c₁ c₂).message
  unfold parseOpMove apiText
  rw [if_neg (by omega), if_neg (by simp), text, (apiGetMove_sendable c₁ c₂).parseMove_text]
  rfl

/-- A message is a call, whose result is reported as zero unless it is negative. -/
theorem parseOpMove_yields (returns : Returns g (apiGetMove c₁ c₂) code after) :
    Yields (fun depth => parseOpMove depth g (apiText c₁ c₂ ++ [nul])) (readCode code) after := by
  obtain ⟨depth, returns⟩ := returns
  refine ⟨depth, fun extra => ?_⟩
  show parseOpMove (depth + extra) g (apiText c₁ c₂ ++ [nul]) = some (readCode code, after)
  rw [parseOpMove_message, returns extra]
  rfl

/-- An empty read is an I/O error. -/
theorem parseOpMove_eof : Yields (fun depth => parseOpMove depth g []) ioError g :=
  ⟨0, fun _ => rfl⟩

/-- A code that is not negative does not end the loop. -/
theorem endMsg_nonneg (nonneg : 0 ≤ code) : endMsg code = none := by
  have codes : whiteWin < 0 ∧ blackWin < 0 ∧ forcedDraw < 0 ∧ ioError < 0 := by decide
  unfold endMsg
  rw [if_neg (by omega), if_neg (by omega), if_neg (by omega), if_neg (by omega),
    if_neg (by omega)]

/-- A negative code ends it. -/
theorem endMsg_negative (negative : code < 0) : ∃ msg, endMsg code = some msg := by
  unfold endMsg
  rw [if_pos negative]
  split
  · exact ⟨_, rfl⟩
  split
  · exact ⟨_, rfl⟩
  split
  · exact ⟨_, rfl⟩
  split
  · exact ⟨_, rfl⟩
  · exact ⟨.unknownError, rfl⟩

end Texts

/-! ## Clients -/

/-- The opponent of the opponent is the client. -/
@[simp] theorem peer_peer (i : Fin 2) : peer (peer i) = i := by
  revert i
  decide

/-- Nobody is their own opponent. -/
@[simp] theorem peer_ne (i : Fin 2) : peer i ≠ i := by
  revert i
  decide

/-- There are two clients. -/
theorem eq_or_peer (i j : Fin 2) : j = i ∨ j = peer i := by
  revert i j
  decide

/-- What a client is given is its own. -/
theorem update_self {α : Type} (f : Fin 2 → α) (i : Fin 2) (x : α) : Function.update f i x i = x :=
  Function.update_self i x f

/-- The opponent keeps what it has. -/
theorem update_peer {α : Type} (f : Fin 2 → α) (i : Fin 2) (x : α) :
    Function.update f i x (peer i) = f (peer i) :=
  Function.update_of_ne (peer_ne i) x f

/-- What the opponent is given leaves the client alone. -/
theorem update_of_peer {α : Type} (f : Fin 2 → α) (i : Fin 2) (x : α) :
    Function.update f (peer i) x i = f i :=
  Function.update_of_ne (peer_ne i).symm x f

/-- After one more turn the opponent is to move. -/
theorem currPlayer_succ {g after : Game} (turn : after.duration = g.duration + 1) :
    currPlayer after = peer (currPlayer g) := by
  have player : getPlayer after = otherPlayer (getPlayer g) := getPlayer_succ turn
  unfold currPlayer
  rw [player]
  rcases getPlayer_known g with white | black
  · rw [white]
    rfl
  · rw [black]
    rfl

/-- Games with the same number of turns have the same player to move. -/
theorem currPlayer_congr {g h : Game} (turns : g.duration = h.duration) :
    currPlayer g = currPlayer h := by
  unfold currPlayer getPlayer
  rw [turns]

/-! ## Phases -/

/-- A relation between the games of the two clients that calls keep. The calls that are refused
are the harmless ones, and `Fine` holds of the messages with which a client may end. -/
structure Link (R : Game → Game → Prop) (Harmless : Game → Move → Prop) (Fine : EndMsg → Prop) :
    Prop where
  /-- The games are sound. -/
  sound : ∀ {g h}, R g h → Sound g
  /-- The relation does not distinguish the clients. -/
  symm : ∀ {g h}, R g h → R h g
  /-- The games have the same number of turns. -/
  turns : ∀ {g h}, R g h → g.duration = h.duration
  /-- A refused call keeps the relation. -/
  refused : ∀ {g h m code after}, R g h → Harmless g m → Returns g m code after →
    ¬ Accepted code → R after h
  /-- A call that ends a game ends it with a fine message. -/
  decided : ∀ {g h m code after msg}, R g h → Returns g m code after → Accepted code →
    endMsg code = some msg → Fine msg
  /-- The same call on both games keeps the relation, or ends with a fine message. -/
  played : ∀ {g h m code after code' after'}, R g h → Returns g m code after → 0 ≤ code →
    Returns h m code' after' →
      (0 ≤ code' ∧ R after after') ∨ ∃ msg, code' < 0 ∧ endMsg code' = some msg ∧ Fine msg
  /-- An I/O error is a fine message. -/
  io : Fine .ioError

/-- The situations the two clients can be in. -/
inductive Phase (R : Game → Game → Prop) (Fine : EndMsg → Prop) (s : System) : Prop
  /-- The games are related and no text is under way. -/
  | idle (related : ∀ i, R (s.game i) (s.game (peer i))) (running : ∀ i, s.ended i = none)
      (drained : ∀ i, s.pipe i = [])
  /-- A client has played a move, and its text is under way. -/
  | sent (i : Fin 2) (c₁ c₂ : UInt8) (before : Game) (code : Int)
    (related : R before (s.game (peer i)))
      (turn : currPlayer before = i)
      (returns : Returns before (apiGetMove c₁ c₂) code (s.game i)) (nonneg : 0 ≤ code)
      (running : ∀ j, s.ended j = none) (drained : s.pipe i = [])
      (message : s.pipe (peer i) = apiText c₁ c₂ ++ [nul])
  /-- A client has ended, and the other one waits for a text that does not come, or has found
  out. -/
  | parted (i : Fin 2) (msg : EndMsg) (ended : s.ended i = some msg) (fine : Fine msg)
      (drained : s.pipe (peer i) = [])
      (rest : (s.ended (peer i) = none ∧ currPlayer (s.game (peer i)) ≠ peer i) ∨
        s.ended (peer i) = some .ioError)

/-- A move that its player names does no harm. -/
def Event.harmless (Harmless : Game → Move → Prop) (s : System) : Event → Prop
  | .names i c₁ c₂ => Harmless (s.game i) (apiGetMove c₁ c₂)
  | .hangsUp _ | .reads _ => True

section Phase

variable {R : Game → Game → Prop} {Harmless : Game → Move → Prop} {Fine : EndMsg → Prop}
  {s next : System} {event : Event}

/-- A played call is a turn. -/
theorem Returns.turn {g after : Game} {m : Move} {code : Int} (sound : Sound g)
    (returns : Returns g m code after) (accepted : Accepted code) :
    after.duration = g.duration + 1 := by
  rcases (returns.made sound).effect sound with
    ⟨refused, -⟩ | ⟨-, v, landing, -, -, -, landed, -, scribbled⟩
  · exact absurd accepted refused
  · exact scribbled.duration.trans landed.duration

/-- A refused call is none. -/
theorem Returns.no_turn {g after : Game} {m : Move} {code : Int} (sound : Sound g)
    (returns : Returns g m code after) (refused : ¬ Accepted code) : Scribbled g after := by
  rcases (returns.made sound).effect sound with ⟨-, scribbled⟩ | ⟨accepted, -⟩
  · exact scribbled
  · exact absurd accepted refused

/-- A refused move changes the game of the client that tried it. -/
theorem Step.refuses {i : Fin 2} {c₁ c₂ : UInt8} {code : Int} {after : Game}
    (running : s.ended i = none) (turn : currPlayer (s.game i) = i)
    (returns : Returns (s.game i) (apiGetMove c₁ c₂) code after)
    (rejected : code = illegalMove ∨ code = missingPromotion) :
    ∃ next, Step s (.names i c₁ c₂) next ∧ next.game i = after ∧
      next.game (peer i) = s.game (peer i) ∧ next.ended = s.ended ∧ next.pipe = s.pipe :=
  ⟨_, .refused running turn (tryMove_yields.mpr returns) rejected, update_self _ _ _,
    update_peer _ _ _, rfl, rfl⟩

/-- A played move is sent to the opponent. -/
theorem Step.sends {i : Fin 2} {c₁ c₂ : UInt8} {code : Int} {after : Game}
    (running : s.ended i = none) (turn : currPlayer (s.game i) = i)
    (drained : s.pipe (peer i) = [])
    (returns : Returns (s.game i) (apiGetMove c₁ c₂) code after) (nonneg : 0 ≤ code) :
    ∃ next, Step s (.names i c₁ c₂) next ∧ next.game i = after ∧
      next.game (peer i) = s.game (peer i) ∧ next.ended (peer i) = s.ended (peer i) ∧
      next.pipe (peer i) = apiText c₁ c₂ ++ [nul] := by
  refine ⟨_, .written running turn (tryMove_yields.mpr returns) nonneg, update_self _ _ _,
    update_peer _ _ _, update_peer _ _ _, ?_⟩
  simp only [update_self, drained, List.nil_append]

/-- A message is read by the client that waits for it. -/
theorem Step.reads_message {i : Fin 2} {g after : Game} {c₁ c₂ : UInt8} {code : Int}
    (running : s.ended i = none) (game : s.game i = g) (waiting : currPlayer g ≠ i)
    (message : s.pipe i = apiText c₁ c₂ ++ [nul])
    (returns : Returns g (apiGetMove c₁ c₂) code after) :
    Step s (.reads i)
      { game := Function.update s.game i after
        ended := Function.update s.ended i (endMsg (readCode code))
        pipe := Function.update s.pipe i [] } := by
  subst game
  have filled : s.pipe i ≠ [] := by
    rw [message]
    simp
  have parses := parseOpMove_yields returns
  rw [← (message_read c₁ c₂).1, ← message] at parses
  have read := Step.read running waiting filled parses
  rwa [message, (message_read c₁ c₂).2] at read

/-- Reading a message does nothing else. -/
theorem Step.of_message {i : Fin 2} {c₁ c₂ : UInt8} (sound : Sound (s.game i))
    (message : s.pipe i = apiText c₁ c₂ ++ [nul]) (step : Step s (.reads i) next) :
    ∃ code after, Returns (s.game i) (apiGetMove c₁ c₂) code after ∧
      next = { game := Function.update s.game i after
               ended := Function.update s.ended i (endMsg (readCode code))
               pipe := Function.update s.pipe i [] } := by
  obtain ⟨code, after, returns, -⟩ := sound.returns (apiGetMove c₁ c₂)
  refine ⟨code, after, returns, ?_⟩
  cases step with
  | read run waiting filled parses =>
    rw [message, (message_read c₁ c₂).1] at parses
    obtain ⟨rfl, rfl⟩ := parses.unique (parseOpMove_yields returns)
    rw [message, (message_read c₁ c₂).2]
  | eof run waiting empty =>
    rw [empty] at message
    simp at message

/-- With no text under way the client to move tries moves until one is sent or the game ends. -/
theorem Phase.step_idle (link : Link R Harmless Fine)
    (related : ∀ i, R (s.game i) (s.game (peer i))) (running : ∀ i, s.ended i = none)
    (drained : ∀ i, s.pipe i = []) (harmless : event.harmless Harmless s)
    (step : Step s event next) : Phase R Fine next := by
  -- the opponent of a client whose turn it is waits
  have waits : ∀ i, currPlayer (s.game i) = i → currPlayer (s.game (peer i)) ≠ peer i := by
    intro i turn
    rw [← currPlayer_congr (link.turns (related i)), turn]
    exact (peer_ne i).symm
  cases step with
  | @refused i c₁ c₂ code after run turn tries rejected =>
    have kept : R after (s.game (peer i)) := link.refused (related i) harmless
      (tryMove_yields.mp tries) fun accepted => rejected.elim accepted.1 accepted.2
    refine .idle (fun j => ?_) running drained
    rcases eq_or_peer i j with rfl | rfl
    · simpa only [update_self, update_peer] using kept
    · simpa only [update_self, update_peer, peer_peer] using link.symm kept
  | @decided i c₁ c₂ code after run turn tries negative played =>
    obtain ⟨msg, ends⟩ := endMsg_negative negative
    refine .parted i msg ?_ ?_ (drained _) (Or.inl ⟨?_, ?_⟩)
    · simpa only [update_self] using ends
    · exact link.decided (related i) (tryMove_yields.mp tries) played ends
    · simpa only [update_peer] using running (peer i)
    · simpa only [update_peer] using waits i turn
  | @written i c₁ c₂ code after run turn tries nonneg =>
    have returns := tryMove_yields.mp tries
    refine .sent i c₁ c₂ (s.game i) code ?_ turn ?_ nonneg (fun j => ?_) ?_ ?_
    · simpa only [update_peer] using related i
    · simpa only [update_self] using returns
    · rcases eq_or_peer i j with rfl | rfl
      · simpa only [update_self] using endMsg_nonneg nonneg
      · simpa only [update_peer] using running (peer i)
    · simpa only [update_of_peer] using drained i
    · simp only [update_self, drained, List.nil_append]
  | @lost i c₁ c₂ code after run turn tries nonneg gone => exact absurd (running _) gone
  | @hungUp i run turn =>
    refine .parted i .ioError ?_ link.io (drained _) (Or.inl ⟨?_, waits i turn⟩)
    · simp only [update_self]
      rfl
    · simpa only [update_peer] using running (peer i)
  | @read i code after run waiting filled => exact absurd (drained i) filled
  | @eof i code after run waiting empty gone => exact absurd (running _) gone

/-- With a text under way the only thing that can happen is that it is read. -/
theorem Phase.step_sent (link : Link R Harmless Fine) {i : Fin 2} {c₁ c₂ : UInt8} {before : Game}
    {code : Int} (related : R before (s.game (peer i))) (turn : currPlayer before = i)
    (returns : Returns before (apiGetMove c₁ c₂) code (s.game i)) (nonneg : 0 ≤ code)
    (running : ∀ j, s.ended j = none) (drained : s.pipe i = [])
    (message : s.pipe (peer i) = apiText c₁ c₂ ++ [nul]) (step : Step s event next) :
    Phase R Fine next := by
  have mover : currPlayer (s.game i) = peer i := by
    rw [currPlayer_succ (returns.turn (link.sound related) (accepted_of_nonneg nonneg)), turn]
  have reader : currPlayer (s.game (peer i)) = i := by
    rw [← currPlayer_congr (link.turns related), turn]
  -- neither client is to move in its own game
  have idle : ∀ j, currPlayer (s.game j) ≠ j := by
    intro j own
    rcases eq_or_peer i j with rfl | rfl
    · exact peer_ne j (mover.symm.trans own)
    · exact peer_ne i (own.symm.trans reader)
  cases step with
  | refused run own | decided run own | written run own | lost run own | hungUp run own =>
    exact absurd own (idle _)
  | eof run waiting empty gone => exact absurd (running _) gone
  | @read j code' after' run waiting filled parses =>
    rcases eq_or_peer i j with rfl | rfl
    · exact absurd drained filled
    obtain ⟨result, after, answer, same⟩ := Step.of_message (link.sound (link.symm related)) message
      (.read run waiting filled parses)
    rw [same]
    rcases link.played related returns nonneg answer with ⟨fits, kept⟩ | ⟨msg, negative, ends, fine⟩
    · have code_zero : readCode result = 0 := if_neg (by omega)
      refine .idle (fun j => ?_) (fun j => ?_) fun j => ?_
      · rcases eq_or_peer i j with rfl | rfl
        · simpa only [update_self, update_of_peer] using kept
        · simpa only [update_self, update_of_peer, peer_peer] using link.symm kept
      · rcases eq_or_peer i j with rfl | rfl
        · simpa only [update_of_peer] using running j
        · simp only [update_self, code_zero]
          rfl
      · rcases eq_or_peer i j with rfl | rfl
        · simpa only [update_of_peer] using drained
        · simp only [update_self]
    · have same : readCode result = result := if_pos negative
      refine .parted (peer i) msg ?_ fine ?_ (Or.inl ⟨?_, ?_⟩)
      · simpa only [update_self, same] using ends
      · simpa only [peer_peer, update_of_peer] using drained
      · simpa only [peer_peer, update_of_peer] using running i
      · simpa only [peer_peer, update_of_peer] using idle i

/-- After the end of one client the other can only find out. -/
theorem Step.of_parted {i : Fin 2} {msg : EndMsg} (ended : s.ended i = some msg)
    (drained : s.pipe (peer i) = [])
    (rest : (s.ended (peer i) = none ∧ currPlayer (s.game (peer i)) ≠ peer i) ∨
      s.ended (peer i) = some .ioError) (step : Step s event next) :
    next.ended = Function.update s.ended (peer i) (some .ioError) ∧ next.pipe = s.pipe := by
  -- a step is one of the other client, which has not ended yet and waits
  have other : ∀ j, s.ended j = none → j = peer i ∧ currPlayer (s.game (peer i)) ≠ peer i := by
    intro j run
    rcases eq_or_peer i j with rfl | rfl
    · rw [ended] at run
      cases run
    · rcases rest with ⟨-, waiting⟩ | found
      · exact ⟨rfl, waiting⟩
      · rw [found] at run
        cases run
  cases step with
  | refused run own | decided run own | written run own | lost run own | hungUp run own =>
    obtain ⟨rfl, waiting⟩ := other _ run
    exact absurd own waiting
  | read run waiting filled =>
    obtain ⟨rfl, -⟩ := other _ run
    exact absurd drained filled
  | @eof j code after run waiting empty gone parses =>
    obtain ⟨rfl, -⟩ := other _ run
    obtain ⟨rfl, rfl⟩ := parses.unique parseOpMove_eof
    exact ⟨rfl, rfl⟩

/-- No step leaves the phases. -/
theorem Phase.step (link : Link R Harmless Fine) (phase : Phase R Fine s)
    (harmless : event.harmless Harmless s) (step : Step s event next) : Phase R Fine next := by
  cases phase with
  | idle related running drained => exact step_idle link related running drained harmless step
  | sent i c₁ c₂ before code related turn returns nonneg running drained message =>
    exact step_sent link related turn returns nonneg running drained message step
  | parted i msg ended fine drained rest =>
    obtain ⟨ends, pipes⟩ := step.of_parted ended drained rest
    refine .parted i msg ?_ fine (by rw [pipes, drained]) (Or.inr ?_)
    · rw [ends, update_of_peer, ended]
    · rw [ends, update_self]

/-- An execution whose refused moves are harmless is always in one of the phases. -/
theorem Execution.phase (link : Link R Harmless Fine) {start : System}
    {history : List (System × Event)} (initial : Phase R Fine start)
    (exec : Execution start history s)
    (harmless : ∀ moment ∈ history, moment.2.harmless Harmless moment.1) : Phase R Fine s := by
  induction exec with
  | start => exact initial
  | @step history s event next exec step ih =>
    have earlier := ih fun moment mem => harmless moment (List.mem_append_left _ mem)
    have here := harmless (s, event) (List.mem_append_right _ List.mem_cons_self)
    exact earlier.step link here step

/-- A client ends with a fine message. -/
theorem Phase.fine (link : Link R Harmless Fine) (phase : Phase R Fine s) {i : Fin 2} {msg : EndMsg}
    (ended : s.ended i = some msg) : Fine msg := by
  cases phase with
  | idle related running =>
    rw [running] at ended
    cases ended
  | sent j c₁ c₂ before code related turn returns nonneg running =>
    rw [running] at ended
    cases ended
  | parted j first ends fine drained rest =>
    rcases eq_or_peer j i with rfl | rfl
    · rw [ends] at ended
      cases ended
      exact fine
    · rcases rest with ⟨run, -⟩ | found
      · rw [run] at ended
        cases ended
      · rw [found] at ended
        cases ended
        exact link.io

end Phase

end Chessh
