import Chessh.Verif.Flight
import Chessh.Verif.Length

/-!
# Every game of two clients ends

Whatever the players name, refused promotions included: only refused moves can be repeated without
end. Every other event is a turn in the game of its client or the end of the client, and games are
short. Until both clients have ended there is always something to read or a player to be asked.
-/

namespace Chessh

/-- The event is more than a refused move. -/
def Event.Advances (s : System) : Event → Prop
  | .names i c₁ c₂ => Accepted (play (s.game i) (apiGetMove c₁ c₂)).1
  | .hangsUp _ | .reads _ => True

instance (s : System) (event : Event) : Decidable (event.Advances s) := by
  cases event <;> unfold Event.Advances <;> infer_instance

/-- How many events of a history were more than refused moves. -/
def advances (history : List (System × Event)) : Nat :=
  history.countP fun moment => moment.2.Advances moment.1

/-- The turns in the game of a client, and its end. -/
def System.progress (s : System) (i : Fin 2) : Int :=
  (s.game i).duration + if s.ended i = none then 0 else 1

/-- The game of a client is short, and shorter as long as the client runs. -/
structure Brief (s : System) (i : Fin 2) : Prop where
  sound : Sound (s.game i)
  clocked : s.ended i = none → ∃ turns, Clocked turns (s.game i)
  bound : (s.game i).duration ≤ 4800

section Call

variable {g after : Game} {m : Move} {code : Int}

/-- A call on a game that has not ended. -/
theorem Clocked.call {turns : Nat} (sound : Sound g) (clocked : Clocked turns g)
    (returns : Returns g m code after) :
    Sound after ∧ after.duration = g.duration + (if Accepted code then 1 else 0) ∧
      after.duration ≤ 4800 ∧ (¬ Ended code → ∃ turns, Clocked turns after) := by
  have made := returns.made sound
  have short := clocked.bound
  have turn : after.duration = g.duration + if Accepted code then 1 else 0 := by
    split
    · rename_i played
      exact returns.turn sound played
    · rename_i refused
      rw [add_zero]
      exact (returns.no_turn sound refused).duration
  refine ⟨made.sound sound, turn, ?_, fun running => ⟨_, clocked.step sound made running⟩⟩
  rw [turn]
  split <;> omega

end Call

section Step

variable {s next : System} {event : Event}

/-- An event of one client is none of the other. -/
theorem Brief.both {i : Fin 2} {gain : Int} (brief : ∀ j, Brief s j) (own : Brief next i)
    (gains : s.progress i + gain ≤ next.progress i) (game : next.game (peer i) = s.game (peer i))
    (ended : next.ended (peer i) = s.ended (peer i)) :
    (∀ j, Brief next j) ∧
      s.progress 0 + s.progress 1 + gain ≤ next.progress 0 + next.progress 1 := by
  have still : next.progress (peer i) = s.progress (peer i) := by
    unfold System.progress
    rw [game, ended]
  constructor
  · intro j
    rcases eq_or_peer i j with rfl | rfl
    · exact own
    · obtain ⟨sound, clocked, bound⟩ := brief (peer i)
      refine ⟨?_, ?_, ?_⟩ <;> rw [game]
      · exact sound
      · rw [ended]
        exact clocked
      · exact bound
  · have sides : ∀ j : Fin 2, j = 0 ∧ peer j = 1 ∨ j = 1 ∧ peer j = 0 := by
      decide
    rcases sides i with ⟨here, there⟩ | ⟨here, there⟩ <;> rw [here] at gains <;>
      rw [there] at still <;> omega

/-- A call of a client: its game is as short as before unless it ends, and it has advanced when the
move is played or the client has ended. -/
theorem Brief.call {i : Fin 2} {after : Game} {m : Move} {code gain : Int} {msg : Option EndMsg}
    (brief : ∀ j, Brief s j) (running : s.ended i = none)
    (returns : Returns (s.game i) m code after)
    (ends : msg = none → ¬ Ended code) (here : next.game = Function.update s.game i after)
    (ended : next.ended = Function.update s.ended i msg)
    (gains : gain ≤ (if Accepted code then 1 else 0) + if msg = none then 0 else 1) :
    (∀ j, Brief next j) ∧
      s.progress 0 + s.progress 1 + gain ≤ next.progress 0 + next.progress 1 := by
  obtain ⟨turns, clocked⟩ := (brief i).clocked running
  obtain ⟨sound, turn, bound, still⟩ := clocked.call (brief i).sound returns
  have game : next.game i = after := by rw [here, update_self]
  have message : next.ended i = msg := by rw [ended, update_self]
  refine Brief.both brief ⟨game ▸ sound, fun runs => ?_, game ▸ bound⟩ ?_ ?_ ?_
  · rw [game]
    exact still (ends (message.symm.trans runs))
  · unfold System.progress
    rw [game, message, running, turn, if_pos rfl]
    omega
  · rw [here, update_peer]
  · rw [ended, update_peer]

/-- A client that ends without a call has advanced. -/
theorem Brief.left {i : Fin 2} {msg : EndMsg} (brief : ∀ j, Brief s j) (running : s.ended i = none)
    (here : next.game = s.game) (ended : next.ended = Function.update s.ended i (some msg)) :
    (∀ j, Brief next j) ∧
      s.progress 0 + s.progress 1 + 1 ≤ next.progress 0 + next.progress 1 := by
  have message : next.ended i = some msg := by rw [ended, update_self]
  refine Brief.both brief ⟨here ▸ (brief i).sound, fun runs => ?_,
    here ▸ (brief i).bound⟩ (le_of_eq ?_)
    (congrFun here _) ?_
  · rw [message] at runs
    cases runs
  · unfold System.progress
    rw [here, message, running, if_pos rfl, if_neg (Option.some_ne_none msg), add_zero]
  · rw [ended, update_peer]

/-- A text that is read is the message of a move. -/
theorem Phase.text {Fine : EndMsg → Prop} (phase : Phase SameTurns Fine s) {i : Fin 2}
    (running : s.ended i = none) (filled : s.pipe i ≠ []) :
    ∃ c₁ c₂, s.pipe i = apiText c₁ c₂ ++ [nul] := by
  cases phase with
  | idle related run drained => exact absurd (drained i) filled
  | sent j c₁ c₂ before code related turn returns nonneg run drained message =>
    rcases eq_or_peer j i with rfl | rfl
    · exact absurd drained filled
    · exact ⟨c₁, c₂, message⟩
  | parted j msg ended fine drained rest =>
    rcases eq_or_peer j i with rfl | rfl
    · rw [ended] at running
      cases running
    · exact absurd drained filled

/-- A code that is left without a message has not ended the game. -/
theorem not_ended_of_endMsg {code : Int} (goes : endMsg code = none) : ¬ Ended code := by
  rintro (rfl | rfl | rfl) <;> exact absurd goes (by decide)

/-- Nor does a call whose message is read and does not end the client. -/
theorem not_ended_of_readCode {code : Int} (goes : endMsg (readCode code) = none) :
    ¬ Ended code := by
  intro ended
  have negative : code < 0 := by
    by_contra nonneg
    exact not_ended_of_nonneg (not_lt.mp nonneg) ended
  rw [readCode, if_pos negative] at goes
  exact not_ended_of_endMsg goes ended

/-- Every step keeps the games short, and is progress unless it is a refused move. -/
theorem Step.brief {Fine : EndMsg → Prop} (phase : Phase SameTurns Fine s) (brief : ∀ i, Brief s i)
    (step : Step s event next) : (∀ i, Brief next i) ∧
      s.progress 0 + s.progress 1 + (if event.Advances s then 1 else 0) ≤
        next.progress 0 + next.progress 1 := by
  -- a move that is named is the executed call
  have named : ∀ {i : Fin 2} {c₁ c₂ : UInt8} {code : Int} {after : Game},
      Returns (s.game i) (apiGetMove c₁ c₂) code after →
        ((Event.names i c₁ c₂).Advances s ↔ Accepted code) := by
    intro i c₁ c₂ code after returns
    rw [(returns.unique ((brief i).sound.played _)).1]
    exact Iff.rfl
  cases step with
  | @refused i c₁ c₂ code after run turn tries rejected =>
    have returns := tryMove_yields.mp tries
    have refused : ¬ Accepted code := fun accepted => rejected.elim accepted.1 accepted.2
    have unended : ¬ Ended code := by
      rcases rejected with rfl | rfl <;> decide
    have same : s.ended = Function.update s.ended i none := by
      rw [← run, Function.update_eq_self]
    refine Brief.call brief run returns (fun _ => unended) rfl same ?_
    rw [if_neg (mt (named returns).mp refused), if_neg refused, if_pos rfl, add_zero]
  | @decided i c₁ c₂ code after run turn tries negative played =>
    have returns := tryMove_yields.mp tries
    refine Brief.call brief run returns not_ended_of_endMsg rfl rfl ?_
    have accepted : Accepted code := played
    rw [if_pos ((named returns).mpr accepted), if_pos accepted]
    split <;> omega
  | @written i c₁ c₂ code after run turn tries nonneg =>
    have returns := tryMove_yields.mp tries
    have accepted := accepted_of_nonneg nonneg
    refine Brief.call brief run returns not_ended_of_endMsg rfl rfl ?_
    rw [if_pos ((named returns).mpr accepted), if_pos accepted]
    split <;> omega
  | @lost i c₁ c₂ code after run turn tries nonneg gone =>
    have returns := tryMove_yields.mp tries
    have accepted := accepted_of_nonneg nonneg
    refine Brief.call brief run returns (fun goes => not_ended_of_nonneg nonneg) rfl rfl ?_
    rw [if_pos ((named returns).mpr accepted), if_pos accepted]
    split <;> omega
  | @hungUp i run turn => exact Brief.left brief run rfl rfl
  | @read i code after run waiting filled parses =>
    obtain ⟨c₁, c₂, message⟩ := phase.text run filled
    obtain ⟨result, after', returns, -⟩ := (brief i).sound.returns (apiGetMove c₁ c₂)
    rw [message, (message_read c₁ c₂).1] at parses
    obtain ⟨rfl, rfl⟩ := parses.unique (parseOpMove_yields returns)
    refine Brief.call brief run returns not_ended_of_readCode rfl rfl ?_
    -- a message that is refused ends the client
    rw [if_pos (show (Event.reads i).Advances s from trivial)]
    by_cases accepted : Accepted result
    · rw [if_pos accepted]
      split <;> omega
    · have negative : result < 0 := by
        by_contra nonneg
        exact accepted (accepted_of_nonneg (not_lt.mp nonneg))
      have same : readCode result = result := if_pos negative
      obtain ⟨msg, gone⟩ := endMsg_negative negative
      rw [same, gone, if_neg accepted, if_neg (Option.some_ne_none msg), zero_add]
  | @eof i code after run waiting empty gone parses =>
    obtain ⟨rfl, rfl⟩ := parses.unique parseOpMove_eof
    exact Brief.left brief run (Function.update_eq_self i s.game) rfl

/-- Whatever a player names, its client goes on from there. -/
theorem Step.named {i : Fin 2} (sound : Sound (s.game i)) (running : s.ended i = none)
    (turn : currPlayer (s.game i) = i) (c₁ c₂ : UInt8) : ∃ next, Step s (.names i c₁ c₂) next := by
  obtain ⟨code, after, returns, -⟩ := sound.returns (apiGetMove c₁ c₂)
  have tries := tryMove_yields.mpr returns
  by_cases nonneg : 0 ≤ code
  · exact ⟨_, .written running turn tries nonneg⟩
  · by_cases rejected : code = illegalMove ∨ code = missingPromotion
    · exact ⟨_, .refused running turn tries rejected⟩
    · exact ⟨_, .decided running turn tries (not_le.mp nonneg) (not_or.mp rejected)⟩

/-- As long as a client runs there is something to read, or it is a player's turn. -/
theorem Phase.goes_on {Fine : EndMsg → Prop} (phase : Phase SameTurns Fine s)
    (sound : ∀ i, Sound (s.game i)) (runs : ∃ i, s.ended i = none) :
    (∃ i next, Step s (.reads i) next) ∨ ∃ i, s.ended i = none ∧ currPlayer (s.game i) = i := by
  cases phase with
  | idle related running =>
    refine Or.inr ⟨currPlayer (s.game 0), running _, ?_⟩
    rcases eq_or_peer 0 (currPlayer (s.game 0)) with same | same <;> rw [same]
    · exact same
    · rw [← currPlayer_congr (related 0).2.2]
      exact same
  | sent i c₁ c₂ before code related turn returns nonneg running drained message =>
    have waiting : currPlayer (s.game (peer i)) ≠ peer i := by
      rw [← currPlayer_congr related.2.2, turn]
      exact (peer_ne i).symm
    obtain ⟨code', after, answer, -⟩ := (sound (peer i)).returns (apiGetMove c₁ c₂)
    exact Or.inl ⟨peer i, _, .reads_message (running _) rfl waiting message answer⟩
  | parted i msg ended fine drained rest =>
    obtain ⟨j, run⟩ := runs
    rcases rest with ⟨running, waiting⟩ | found
    · refine Or.inl ⟨peer i, _, .eof running waiting drained ?_ parseOpMove_eof⟩
      rw [peer_peer, ended]
      exact Option.some_ne_none msg
    · rcases eq_or_peer i j with rfl | rfl
      · rw [ended] at run
        cases run
      · rw [found] at run
        cases run

end Step

/-! ## Executions -/

section Execution

variable {memory : Fin 2 → Game} {history : List (System × Event)} {s : System}

/-- Along an execution the games stay short, and everything but a refused move is progress. -/
theorem Execution.brief (exec : Execution (System.start memory) history s) :
    (∀ i, Brief s i) ∧ (advances history : Int) ≤ s.progress 0 + s.progress 1 := by
  induction exec with
  | start =>
    refine ⟨fun i => ⟨newGame_sound (memory i), fun _ => ⟨0, newGame_clocked (memory i)⟩, ?_⟩, ?_⟩
    · exact show (0 : Int) ≤ 4800 by decide
    · exact le_rfl
  | @step history s event next exec step ih =>
    obtain ⟨brief, counted⟩ := ih
    obtain ⟨still, gains⟩ := step.brief exec.turns brief
    refine ⟨still, ?_⟩
    have more : advances (history ++ [(s, event)]) =
        advances history + if event.Advances s then 1 else 0 := by
      simp [advances, List.countP_append, List.countP_singleton]
    rw [more]
    push_cast
    omega

/-- In every execution all but at most 9602 events are refused moves. Until both clients have ended
there is something to read, or it is the turn of a player, and then whatever the player names the
client goes on from there; and when one client has ended, the next event ends the other. -/
theorem Execution.settles (exec : Execution (System.start memory) history s) :
    advances history ≤ 9602 ∧
    ((∃ i, s.ended i = none) → (∃ i next, Step s (.reads i) next) ∨
      ∃ i, s.ended i = none ∧ currPlayer (s.game i) = i ∧
        ∀ c₁ c₂, ∃ next, Step s (.names i c₁ c₂) next) ∧
    ((∃ i, s.ended i ≠ none) → ∀ event next, Step s event next → ∀ i, next.ended i ≠ none) := by
  obtain ⟨brief, counted⟩ := exec.brief
  refine ⟨?_, fun runs => ?_, fun over_ event next step i => ?_⟩
  · have most : ∀ i, s.progress i ≤ 4801 := by
      intro i
      have bound := (brief i).bound
      unfold System.progress
      split <;> omega
    have first := most 0
    have second := most 1
    omega
  · rcases exec.turns.goes_on (fun i => (brief i).sound) runs with reads | ⟨i, run, turn⟩
    · exact Or.inl reads
    · exact Or.inr ⟨i, run, turn, Step.named (brief i).sound run turn⟩
  · obtain ⟨j, gone⟩ := over_
    cases exec.turns with
    | idle related running => exact absurd (running j) gone
    | sent k c₁ c₂ before code related turn returns nonneg running => exact absurd (running j) gone
    | parted k msg ended fine drained rest =>
      rw [(step.of_parted ended drained rest).1]
      rcases eq_or_peer k i with rfl | rfl
      · rw [update_of_peer, ended]
        exact Option.some_ne_none msg
      · rw [update_self]
        exact Option.some_ne_none _

end Execution

/-- Behind the shortest mate Black's client has ended and White's is left with an empty pipe to
read, and whatever happens next ends it. -/
theorem settles_mate : ∃ history s, Execution (System.start fun _ => blank) history s ∧
    s.ended 1 = some .blackWin ∧ s.ended 0 = none ∧ advances history ≤ 9602 ∧
    ((∃ i next, Step s (.reads i) next) ∨
      ∃ i, s.ended i = none ∧ currPlayer (s.game i) = i ∧
        ∀ c₁ c₂, ∃ next, Step s (.names i c₁ c₂) next) ∧
    ∀ event next, Step s event next → ∀ i, next.ended i ≠ none := by
  obtain ⟨history, s, exec, black, white, -⟩ := foolsMate_ends
  have settled := exec.settles
  refine ⟨history, s, exec, black, white, settled.1, settled.2.1 ⟨0, white⟩, settled.2.2 ⟨1, ?_⟩⟩
  rw [black]
  exact Option.some_ne_none _

end Chessh
