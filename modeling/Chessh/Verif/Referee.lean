import Chessh.Verif.Contest
import Chessh.Verif.Flight
import Chessh.Verif.Replicas
import Chessh.Verif.Result

/-!
# One contest for two clients

Each client has a game of its own and tells its player at once what has become of a move. As long
as no refused move changes a piece, the two of them speak for one umpire who hears the moves in the
order in which the players name them: a game stands for the umpire's contest, or for the contest
before the last move while the text of it is under way.
-/

namespace Chessh

open Rules (Side Ply Contest Outcome)

/-- The side a client plays. -/
def sideOf (i : Fin 2) : Side := if i.val = 0 then .white else .black

/-- The move that a player names. -/
def Event.ply : Event → Option Ply
  | .names _ c₁ c₂ => some (apiGetMove c₁ c₂).ply
  | .hangsUp _ | .reads _ => none

/-- The contest of an umpire who has heard all moves that have been named. -/
noncomputable def umpire (history : List (System × Event)) : Contest :=
  Contest.start.hears (history.filterMap fun moment => moment.2.ply)

/-- What the umpire hears of an event. -/
noncomputable def Event.heard (event : Event) (c : Contest) : Contest := event.ply.elim c c.hear

/-- The situations the two clients can be in, as the umpire sees them. -/
inductive Refereed (c : Contest) (s : System) : Prop
  /-- Both games stand for the contest, and no text is under way. -/
  | idle (goes : ¬ c.outcome.Over) (stands : ∀ i, Stands (s.game i) c)
      (running : ∀ i, s.ended i = none) (drained : ∀ i, s.pipe i = [])
  /-- The text of the last move is under way. -/
  | sent (i : Fin 2) (c₁ c₂ : UInt8) (earlier : Contest) (turn : earlier.pos.turn = sideOf i)
      (legal : earlier.pos.Legal (apiGetMove c₁ c₂).ply)
      (same : c = earlier.play (apiGetMove c₁ c₂).ply) (goes : ¬ c.outcome.Over)
      (stands : Stands (s.game i) c) (behind : Stands (s.game (peer i)) earlier)
      (running : ∀ j, s.ended j = none) (drained : s.pipe i = [])
      (message : s.pipe (peer i) = apiText c₁ c₂ ++ [nul])
  /-- A client has ended, with the result of the last move or since its player has left. -/
  | parted (i : Fin 2) (msg : EndMsg) (earlier : Contest) (turn : earlier.pos.turn = sideOf i)
      (ended : s.ended i = some msg) (behind : Stands (s.game (peer i)) earlier)
      (verdict : (msg = .ioError ∧ c = earlier) ∨
        ∃ m, earlier.pos.Legal m ∧ c = earlier.play m ∧ c.outcome.Over ∧
          endMsg (outcomeCode c.outcome) = some msg)
      (drained : s.pipe (peer i) = [])
      (rest : s.ended (peer i) = none ∨ s.ended (peer i) = some .ioError)

section Client

variable {g after : Game} {c : Contest} {m : Move} {code : Int}

/-- The player to move is the one whose turn it is in the contest. -/
theorem Stands.turn_iff (stands : Stands g c) {i : Fin 2} :
    currPlayer g = i ↔ c.pos.turn = sideOf i := by
  unfold currPlayer sideOf
  rw [stands.tracks.turn]
  revert i
  cases c.pos.turn <;> decide

/-- A client waits when it is not its side's turn. -/
theorem Stands.waits (stands : Stands g c) {i : Fin 2} (turn : c.pos.turn = sideOf i) :
    currPlayer g ≠ peer i := by
  rw [stands.turn_iff.mpr turn]
  exact (peer_ne i).symm

/-- After a move it is the turn of the other side. -/
theorem sideOf_peer (i : Fin 2) : sideOf (peer i) = (sideOf i).other := by
  revert i
  decide

/-- A refused move that changes no piece leaves a game that stands for the contest. -/
theorem Stands.refused (stands : Stands g c) (returns : Returns g m code after)
    (refused : ¬ Accepted code) (quiet : ¬ Retypes g m) : Stands after c := by
  have sound := stands.tracks.sound
  have made := returns.made sound
  have scribbled := returns.no_turn sound refused
  have types : ∀ r c, (after.get r c).type = (g.get r c).type := by
    cases made with
    | refused tried rejected =>
      refine tried.types ?_ quiet
      rcases rejected with rfl | rfl <;> decide
    | expired | offered | continued | stalemated => exact absurd (by decide) refused
    | mated =>
      refine absurd ?_ refused
      split <;> decide
  refine ⟨stands.tracks.scribbled (made.sound sound) scribbled types, ?_⟩
  rw [← stands.clock, Chessh.clock, Chessh.clock, scribbled.duration, scribbled.big]

/-- What the umpire hears of a refused move. -/
theorem Stands.hear_refused (stands : Stands g c) (returns : Returns g m code after)
    (refused : ¬ Accepted code) : c.hear m.ply = c :=
  if_neg (mt (stands.accepted_iff returns).mpr refused)

/-- What the umpire hears of a move that is played. -/
theorem Stands.hear_accepted (stands : Stands g c) (returns : Returns g m code after)
    (accepted : Accepted code) : c.hear m.ply = c.play m.ply :=
  if_pos ((stands.accepted_iff returns).mp accepted)

end Client

section Step

variable {c : Contest} {s next : System} {event : Event}

/-- With no text under way a player names a move, or leaves. -/
theorem Refereed.step_idle (goes : ¬ c.outcome.Over) (stands : ∀ i, Stands (s.game i) c)
    (running : ∀ i, s.ended i = none) (drained : ∀ i, s.pipe i = []) (quiet : ¬ event.Retypes s)
    (step : Step s event next) : Refereed (event.heard c) next := by
  cases step with
  | @refused i c₁ c₂ code after run turn tries rejected =>
    have returns := tryMove_yields.mp tries
    have refused : ¬ Accepted code := fun accepted => rejected.elim accepted.1 accepted.2
    change Refereed (c.hear (apiGetMove c₁ c₂).ply) _
    rw [(stands i).hear_refused returns refused]
    refine .idle goes (fun j => ?_) running drained
    rcases eq_or_peer i j with rfl | rfl
    · simpa only [update_self] using (stands j).refused returns refused quiet
    · simpa only [update_peer] using stands (peer i)
  | @decided i c₁ c₂ code after run turn tries negative played =>
    have returns := tryMove_yields.mp tries
    have told := ((stands i).made returns).1
    have legal := ((stands i).accepted_iff returns).mp played
    change Refereed (c.hear (apiGetMove c₁ c₂).ply) _
    rw [(stands i).hear_accepted returns played]
    obtain ⟨msg, ends⟩ := endMsg_negative negative
    unfold Contest.answer at told
    rw [if_pos legal] at told
    have code_eq : code = outcomeCode (c.play (apiGetMove c₁ c₂).ply).outcome := told
    have over_ := (outcomeCode_neg (c.play (apiGetMove c₁ c₂).ply).outcome).mp (code_eq ▸ negative)
    refine .parted i msg c ((stands i).turn_iff.mp turn) ?_ ?_ (Or.inr ⟨_, legal, rfl, over_, ?_⟩)
      (drained _) (Or.inl ?_)
    · simpa only [update_self] using ends
    · simpa only [update_peer] using stands (peer i)
    · rw [← code_eq]
      exact ends
    · simpa only [update_peer] using running (peer i)
  | @written i c₁ c₂ code after run turn tries nonneg =>
    have returns := tryMove_yields.mp tries
    have accepted := accepted_of_nonneg nonneg
    obtain ⟨legal, on⟩ := ((stands i).nonneg_iff returns).mp nonneg
    change Refereed (c.hear (apiGetMove c₁ c₂).ply) _
    rw [(stands i).hear_accepted returns accepted]
    refine .sent i c₁ c₂ c ((stands i).turn_iff.mp turn) legal rfl on ?_ ?_ (fun j => ?_) ?_ ?_
    · simpa only [update_self] using ((stands i).made returns).2 nonneg
    · simpa only [update_peer] using stands (peer i)
    · rcases eq_or_peer i j with rfl | rfl
      · simpa only [update_self] using endMsg_nonneg nonneg
      · simpa only [update_peer] using running (peer i)
    · simpa only [update_of_peer] using drained i
    · simp only [update_self, drained, List.nil_append]
  | @lost i c₁ c₂ code after run turn tries nonneg gone => exact absurd (running _) gone
  | @hungUp i run turn =>
    refine .parted i .ioError c ((stands i).turn_iff.mp turn) ?_ (stands _) (Or.inl ⟨rfl, rfl⟩)
      (drained _) (Or.inl ?_)
    · simp only [update_self]
      rfl
    · simpa only [update_peer] using running (peer i)
  | @read i code after run waiting filled => exact absurd (drained i) filled
  | @eof i code after run waiting empty gone => exact absurd (running _) gone

/-- With a text under way it is read, and then both games stand for the contest. -/
theorem Refereed.step_sent {i : Fin 2} {c₁ c₂ : UInt8} {earlier : Contest}
    (turn : earlier.pos.turn = sideOf i) (legal : earlier.pos.Legal (apiGetMove c₁ c₂).ply)
    (same : c = earlier.play (apiGetMove c₁ c₂).ply) (goes : ¬ c.outcome.Over)
    (stands : Stands (s.game i) c) (behind : Stands (s.game (peer i)) earlier)
    (running : ∀ j, s.ended j = none) (drained : s.pipe i = [])
    (message : s.pipe (peer i) = apiText c₁ c₂ ++ [nul]) (step : Step s event next) :
    Refereed (event.heard c) next := by
  have turn' : c.pos.turn = sideOf (peer i) := by
    rw [same, sideOf_peer, ← turn]
    rfl
  -- neither client is to move in its own game
  have waits : ∀ j, currPlayer (s.game j) ≠ j := by
    intro j
    rcases eq_or_peer i j with rfl | rfl
    · rw [stands.turn_iff.mpr turn']
      exact peer_ne j
    · exact behind.waits turn
  cases step with
  | refused run own | decided run own | written run own | lost run own | hungUp run own =>
    exact absurd own (waits _)
  | eof run waiting empty gone => exact absurd (running _) gone
  | @read j code after run waiting filled parses =>
    rcases eq_or_peer i j with rfl | rfl
    · exact absurd drained filled
    obtain ⟨result, after', returns, read⟩ := Step.of_message behind.tracks.sound message
      (.read run waiting filled parses)
    have nonneg : 0 ≤ result := (behind.nonneg_iff returns).mpr ⟨legal, same ▸ goes⟩
    have caught : Stands after' c := same ▸ (behind.made returns).2 nonneg
    have zero : readCode result = 0 := if_neg (by omega)
    have silent : (Event.reads (peer i)).heard c = c := rfl
    rw [read, silent]
    refine .idle goes (fun j => ?_) (fun j => ?_) fun j => ?_
    · rcases eq_or_peer i j with rfl | rfl
      · simpa only [update_of_peer] using stands
      · simpa only [update_self] using caught
    · rcases eq_or_peer i j with rfl | rfl
      · simpa only [update_of_peer] using running j
      · simp only [update_self, zero]
        rfl
    · rcases eq_or_peer i j with rfl | rfl
      · simpa only [update_of_peer] using drained
      · simp only [update_self]

/-- After the end of one client the other one finds nothing to read. -/
theorem Refereed.step_parted {i : Fin 2} {msg : EndMsg} {earlier : Contest}
    (turn : earlier.pos.turn = sideOf i) (ended : s.ended i = some msg)
    (behind : Stands (s.game (peer i)) earlier)
    (verdict : (msg = .ioError ∧ c = earlier) ∨ ∃ m, earlier.pos.Legal m ∧ c = earlier.play m ∧
      c.outcome.Over ∧ endMsg (outcomeCode c.outcome) = some msg)
    (drained : s.pipe (peer i) = [])
    (rest : s.ended (peer i) = none ∨ s.ended (peer i) = some .ioError) (step : Step s event next) :
    Refereed (event.heard c) next := by
  -- a step is one of the other client, which waits
  have other : ∀ j, s.ended j = none → j = peer i ∧ currPlayer (s.game j) ≠ j := by
    intro j run
    rcases eq_or_peer i j with rfl | rfl
    · rw [ended] at run
      cases run
    · exact ⟨rfl, behind.waits turn⟩
  cases step with
  | refused run own | decided run own | written run own | lost run own | hungUp run own =>
    exact absurd own (other _ run).2
  | read run waiting filled =>
    obtain ⟨rfl, -⟩ := other _ run
    exact absurd drained filled
  | @eof j code after run waiting empty gone parses =>
    obtain ⟨rfl, -⟩ := other _ run
    obtain ⟨rfl, rfl⟩ := parses.unique parseOpMove_eof
    refine .parted i msg earlier turn ?_ ?_ verdict drained (Or.inr ?_)
    · simpa only [update_of_peer] using ended
    · simpa only [update_self] using behind
    · simp only [update_self]
      rfl

/-- No step leaves the situations, and the umpire hears of it. -/
theorem Refereed.step (refereed : Refereed c s) (quiet : ¬ event.Retypes s)
    (step : Step s event next) :
    Refereed (event.heard c) next := by
  cases refereed with
  | idle goes stands running drained => exact step_idle goes stands running drained quiet step
  | sent i c₁ c₂ earlier turn legal same goes stands behind running drained message =>
    exact step_sent turn legal same goes stands behind running drained message step
  | parted i msg earlier turn ended behind verdict drained rest =>
    exact step_parted turn ended behind verdict drained rest step

end Step

/-! ## Executions -/

section Execution

/-- A client that names a move runs. -/
theorem Step.running_names {s next : System} {i : Fin 2} {c₁ c₂ : UInt8}
    (step : Step s (.names i c₁ c₂) next) : s.ended i = none := by
  cases step with
  | refused run | decided run | written run | lost run => exact run

variable {memory : Fin 2 → Game} {history : List (System × Event)} {s : System}

/-- At the start there is something to play. -/
theorem start_goes : ¬ Contest.start.outcome.Over := by
  obtain ⟨⟨-, nonneg⟩, -⟩ := first_moves_codes
  have opens := ((newGame_tracks blank).replayed _ fun call mem => (nonneg call mem).2).1
  exact fun over_ => Contest.stuck_of_over (by decide) over_ _ opens.1

/-- The umpire hears of every event. -/
theorem umpire_concat (history : List (System × Event)) (s : System) (event : Event) :
    umpire (history ++ [(s, event)]) = event.heard (umpire history) := by
  unfold umpire Event.heard
  rw [List.filterMap_append]
  cases event with
  | names i c₁ c₂ => exact Contest.hears_concat _ _ _
  | hangsUp | reads => exact congrArg Contest.start.hears (List.append_nil _)

/-- In an execution in which no refused move changes a piece the two clients are in one of the
situations. -/
theorem Execution.refereed (exec : Execution (System.start memory) history s)
    (quiet : ∀ moment ∈ history, ¬ moment.2.Retypes moment.1) : Refereed (umpire history) s := by
  induction exec with
  | start =>
    exact .idle start_goes (fun i => newGame_stands (memory i)) (fun _ => rfl) fun _ => rfl
  | @step history s event next exec step ih =>
    rw [umpire_concat]
    have earlier := ih fun moment mem => quiet moment (List.mem_append_left _ mem)
    exact earlier.step (quiet (s, event) (List.mem_append_right _ List.mem_cons_self)) step

/-- Whose turn it is to name a move has a game that stands for the umpire's contest, which goes
on. -/
theorem Refereed.mover {c : Contest} (refereed : Refereed c s) {i : Fin 2}
    (running : s.ended i = none)
    (turn : currPlayer (s.game i) = i) : Stands (s.game i) c ∧ ¬ c.outcome.Over := by
  cases refereed with
  | idle goes stands => exact ⟨stands i, goes⟩
  | sent j c₁ c₂ earlier side legal same goes stands behind =>
    rcases eq_or_peer j i with rfl | rfl
    · exact ⟨stands, goes⟩
    · exact absurd turn (behind.waits side)
  | parted j msg earlier side ended behind =>
    rcases eq_or_peer j i with rfl | rfl
    · rw [ended] at running
      cases running
    · exact absurd turn (behind.waits side)

/-- The game of a client that runs stands for the contest, or for the one before the last move, and
then the client waits. -/
theorem Refereed.running {c : Contest} (refereed : Refereed c s) {i : Fin 2}
    (running : s.ended i = none) :
    Stands (s.game i) c ∨ ∃ earlier m, earlier.pos.Legal m ∧ c = earlier.play m ∧
      Stands (s.game i) earlier ∧ currPlayer (s.game i) ≠ i := by
  cases refereed with
  | idle goes stands => exact Or.inl (stands i)
  | sent j c₁ c₂ earlier side legal same goes stands behind =>
    rcases eq_or_peer j i with rfl | rfl
    · exact Or.inl stands
    · exact Or.inr ⟨earlier, _, legal, same, behind, behind.waits side⟩
  | parted j msg earlier side ended behind verdict =>
    rcases eq_or_peer j i with rfl | rfl
    · rw [ended] at running
      cases running
    · rcases verdict with ⟨-, same⟩ | ⟨m, legal, same, -⟩
      · exact Or.inl (same ▸ behind)
      · exact Or.inr ⟨earlier, m, legal, same, behind, behind.waits side⟩

/-- A client ends with the result of the contest or with an I/O error. -/
theorem Refereed.verdict {c : Contest} (refereed : Refereed c s) {i : Fin 2} {msg : EndMsg}
    (ended : s.ended i = some msg) :
    msg = .ioError ∨ (c.outcome.Over ∧ endMsg (outcomeCode c.outcome) = some msg) := by
  cases refereed with
  | idle goes stands running =>
    rw [running] at ended
    cases ended
  | sent j c₁ c₂ earlier side legal same goes stands behind running =>
    rw [running] at ended
    cases ended
  | parted j first earlier side ends behind verdict drained rest =>
    rcases eq_or_peer j i with rfl | rfl
    · rw [ends] at ended
      cases ended
      exact verdict.imp And.left fun ⟨_, _, _, result⟩ => result
    · rcases rest with run | found
      · rw [run] at ended
        cases ended
      · rw [found] at ended
        cases ended
        exact Or.inl rfl

/-- Take any execution of the two clients in which no refused move changes a piece, and an umpire
who hears the moves in the order in which they are named, whoever names them. Whenever a player has
named a move it was the turn of that player's side, the umpire's contest was going on, and the
client's `make_move` returned what the umpire says. The game of a client that runs stands for the
contest, or, while it waits, for the contest before the last move; and a client has ended with the
result of the contest or with an I/O error. -/
theorem Execution.one_umpire (exec : Execution (System.start memory) history s)
    (quiet : ∀ moment ∈ history, ¬ moment.2.Retypes moment.1) :
    (∀ before t i c₁ c₂ later, history = before ++ (t, .names i c₁ c₂) :: later →
      (umpire before).pos.turn = sideOf i ∧ ¬ (umpire before).outcome.Over ∧
        ∃ after, Returns (t.game i) (apiGetMove c₁ c₂)
          (answerCode ((umpire before).answer (apiGetMove c₁ c₂).ply)) after) ∧
    (∀ i, s.ended i = none → Stands (s.game i) (umpire history) ∨ ∃ earlier m,
      earlier.pos.Legal m ∧ umpire history = earlier.play m ∧ Stands (s.game i) earlier ∧
        currPlayer (s.game i) ≠ i) ∧
    ∀ i msg, s.ended i = some msg → msg = .ioError ∨
      ((umpire history).outcome.Over ∧
        endMsg (outcomeCode (umpire history).outcome) = some msg) := by
  have refereed := exec.refereed quiet
  refine ⟨?_, fun i => refereed.running, fun i msg => refereed.verdict⟩
  rintro before t i c₁ c₂ later rfl
  obtain ⟨mid, first, step, -⟩ := exec.split
  have there := first.refereed fun moment mem => quiet moment (List.mem_append_left _ mem)
  obtain ⟨stands, goes⟩ := there.mover (step.running_names) step.turn
  obtain ⟨code, after, returns, -⟩ := stands.tracks.sound.returns (apiGetMove c₁ c₂)
  refine ⟨stands.turn_iff.mp step.turn, goes, after, ?_⟩
  rw [← (stands.made returns).1]
  exact returns

end Execution

/-- White's player names e2e4, and is told what the umpire says. -/
theorem one_umpire_opening : ∃ s, Execution (System.start fun _ => blank)
    [(System.start fun _ => blank, .names 0 208 144)] s ∧
      (umpire []).pos.turn = .white ∧
      ∃ after, Returns (newGame blank) (apiGetMove 208 144)
        (answerCode ((umpire []).answer (apiGetMove 208 144).ply)) after := by
  have returns := (newGame_sound blank).played (apiGetMove 208 144)
  have zero : (play (newGame blank) (apiGetMove 208 144)).1 = 0 := by decide +kernel
  rw [zero] at returns
  obtain ⟨s, step, -⟩ :=
    Step.sends (s := System.start fun _ => blank) (i := 0) rfl rfl rfl returns le_rfl
  have exec := Execution.start.step step
  -- the pawn neither reaches the last row nor castles
  have pawn : ((newGame blank).get 6 4).type = .pawn := by decide
  have quiet : ¬ Retypes (newGame blank) (apiGetMove 208 144) := by
    rintro (⟨-, -, -, last⟩ | ⟨-, king⟩ | ⟨-, king⟩ | ⟨-, king⟩)
    · revert last
      decide
    all_goals exact PieceType.noConfusion (pawn.symm.trans king)
  have judged := (exec.one_umpire fun moment mem => by
    rw [List.mem_singleton.mp mem]
    exact quiet).1 [] _ 0 208 144 [] rfl
  exact ⟨s, exec, judged.1, judged.2.2⟩

end Chessh
