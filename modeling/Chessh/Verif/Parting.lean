import Chessh.Verif.Exchange

/-!
# How the two clients part

`get_player_move` returns the code of a move that ends the game without writing the move. The
opponent never learns it: it reads the end of the file and reports an I/O error. So at most one
client reports the result of a game, `Execution.result_alone`, as the shortest mate shows.
-/

namespace Chessh

/-! ## Turns -/

/-- The clients agree about nothing but the number of turns. -/
def SameTurns (g h : Game) : Prop := Sound g ∧ Sound h ∧ g.duration = h.duration

/-- Every exchange keeps the number of turns, whatever the clients try. -/
theorem sameTurns_link : Link SameTurns (fun _ _ => True) fun _ => True where
  sound related := related.1
  symm related := ⟨related.2.1, related.1, related.2.2.symm⟩
  turns related := related.2.2
  refused := by
    intro g h m code after related _ returns refused
    have scribbled := returns.no_turn related.1 refused
    exact ⟨(returns.made related.1).sound related.1, related.2.1,
      scribbled.duration.trans related.2.2⟩
  decided _ _ _ _ := trivial
  played := by
    intro g h m code after code' after' related returns nonneg returns'
    by_cases fits : 0 ≤ code'
    · refine Or.inl ⟨fits, (returns.made related.1).sound related.1,
        (returns'.made related.2.1).sound related.2.1, ?_⟩
      rw [returns.turn related.1 (accepted_of_nonneg nonneg),
        returns'.turn related.2.1 (accepted_of_nonneg fits), related.2.2]
    · obtain ⟨msg, ends⟩ := endMsg_negative (not_le.mp fits)
      exact Or.inr ⟨msg, not_le.mp fits, ends, trivial⟩
  io := trivial

/-- In every execution the clients are in one of the phases. -/
theorem Execution.turns {memory : Fin 2 → Game} {history : List (System × Event)} {s : System}
    (exec : Execution (System.start memory) history s) : Phase SameTurns (fun _ => True) s := by
  refine exec.phase sameTurns_link (.idle (fun i => ?_) (fun _ => rfl) fun _ => rfl) ?_
  · exact ⟨newGame_sound _, newGame_sound _, rfl⟩
  · rintro ⟨t, event⟩ _
    cases event <;> trivial

/-- The three results of a game. -/
def EndMsg.IsResult (msg : EndMsg) : Prop := msg = .whiteWin ∨ msg = .blackWin ∨ msg = .forcedDraw

/-- Whatever moves are tried, when one client has ended with the result of the game, the other
one has not ended with it: it has ended with an I/O error, or it is running, and then the only
thing it can do is to read the end of the file and end with an I/O error. -/
theorem Execution.result_alone {memory : Fin 2 → Game} {history : List (System × Event)}
    {s : System} (exec : Execution (System.start memory) history s) {i : Fin 2} {msg : EndMsg}
    (ended : s.ended i = some msg) (result : msg.IsResult) :
    s.ended (peer i) ≠ some msg ∧
      (s.ended (peer i) = some .ioError ∨
        (s.ended (peer i) = none ∧ (∃ event next, Step s event next) ∧
          ∀ event next, Step s event next → next.ended (peer i) = some .ioError)) := by
  have other : msg ≠ .ioError := by
    rcases result with rfl | rfl | rfl <;> decide
  cases exec.turns with
  | idle related running =>
    rw [running] at ended
    cases ended
  | sent j c₁ c₂ before code related turn returns nonneg running =>
    rw [running] at ended
    cases ended
  | parted j first over_ _ drained rest =>
    rcases eq_or_peer i j with rfl | rfl
    · rcases rest with ⟨run, waiting⟩ | found
      · refine ⟨by rw [run]; exact (Option.some_ne_none msg).symm, Or.inr ⟨run, ?_, ?_⟩⟩
        · have gone : s.ended (peer (peer j)) ≠ none := by
            rw [peer_peer, ended]
            exact Option.some_ne_none _
          exact ⟨_, _, Step.eof run waiting drained gone parseOpMove_eof⟩
        · intro event next step
          rw [(step.of_parted over_ drained (Or.inl ⟨run, waiting⟩)).1, update_self]
      · rw [found]
        exact ⟨fun same => other (Option.some.inj same).symm, Or.inl rfl⟩
    · rw [peer_peer, ended] at rest
      rcases rest with ⟨run, -⟩ | found
      · cases run
      · exact absurd (Option.some.inj found) other

/-! ## The shortest mate -/

/-- Both clients hold the game, and no text is under way. -/
def resting (g : Game) : System := ⟨fun _ => g, fun _ => none, fun _ => []⟩

/-- Both clients are given the same. -/
theorem update_both {α : Type} (i : Fin 2) (x y : α) :
    Function.update (Function.update (fun _ => x) i y) (peer i) y = fun _ => y := by
  funext j
  rcases eq_or_peer i j with rfl | rfl
  · rw [update_of_peer, update_self]
  · rw [update_self]

/-- A move that is played is sent and read. -/
theorem Execution.exchange {start : System} {history : List (System × Event)} {g after : Game}
    (exec : Execution start history (resting g)) {c₁ c₂ : UInt8} {code : Int}
    (returns : Returns g (apiGetMove c₁ c₂) code after) (nonneg : 0 ≤ code) :
    ∃ history, Execution start history (resting after) := by
  have waiting : currPlayer g ≠ peer (currPlayer g) := (peer_ne _).symm
  have sent :=
    exec.step (Step.written (i := currPlayer g) rfl rfl (tryMove_yields.mpr returns) nonneg)
  have read := sent.step (Step.reads_message (update_peer _ _ _) (update_peer _ _ _) waiting
    (by dsimp only [resting]; rw [update_self, List.nil_append]) returns)
  have zero : readCode code = 0 := if_neg (by omega)
  have final : (⟨Function.update (Function.update (fun _ => g) (currPlayer g) after)
        (peer (currPlayer g)) after,
      Function.update (Function.update (fun _ => none) (currPlayer g) (endMsg code))
        (peer (currPlayer g)) (endMsg (readCode code)),
      Function.update (Function.update (fun _ => []) (peer (currPlayer g))
        ([] ++ apiText c₁ c₂ ++ [nul])) (peer (currPlayer g)) []⟩ : System) = resting after := by
    rw [update_both, endMsg_nonneg nonneg, zero, endMsg_nonneg le_rfl, update_both,
      Function.update_idem, Function.update_eq_self_iff.mpr rfl]
    rfl
  exact ⟨_, final ▸ read⟩

/-- The moves two bytes each name. -/
def named (bytes : List (UInt8 × UInt8)) : List Move := bytes.map fun c => apiGetMove c.1 c.2

/-- Moves that are played one after the other are sent and read one after the other. -/
theorem Execution.exchanges {start : System} (bytes : List (UInt8 × UInt8)) {g : Game}
    (sound : Sound g) (codes : ∀ call ∈ (replay g (named bytes)).1, 0 ≤ call.2)
    (reached : ∃ history, Execution start history (resting g)) :
    ∃ history, Execution start history (resting (replay g (named bytes)).2) := by
  induction bytes generalizing g with
  | nil => exact reached
  | cons c bytes ih =>
    obtain ⟨history, exec⟩ := reached
    have played := sound.played (apiGetMove c.1 c.2)
    have next := exec.exchange played (codes _ List.mem_cons_self)
    have others : ∀ call ∈ (replay (play g (apiGetMove c.1 c.2)).2 (named bytes)).1, 0 ≤ call.2 :=
      fun call mem => codes call (List.mem_cons_of_mem _ mem)
    exact ih (sound.play _) others next

/-- The pawn moves of the shortest mate. -/
def foolsMate : List (UInt8 × UInt8) := [(212, 180), (48, 112), (216, 152)]

/-- Black's queen mates. -/
def foolsQueen : UInt8 × UInt8 := (12, 156)

/-- A client ends when its player mates, and nothing is sent. -/
theorem Execution.mates {start : System} {history : List (System × Event)} {g after : Game}
    (exec : Execution start history (resting g)) (turn : currPlayer g = 1) {c₁ c₂ : UInt8}
    (returns : Returns g (apiGetMove c₁ c₂) blackWin after) :
    ∃ history s, Execution start history s ∧
      s.ended 1 = some .blackWin ∧ s.ended 0 = none ∧ s.pipe 0 = [] ∧
        currPlayer (s.game 0) ≠ 0 := by
  have ends := exec.step (Step.decided rfl turn (tryMove_yields.mpr returns) (by decide)
    (by decide))
  have black : endMsg blackWin = some .blackWin := by decide
  refine ⟨_, _, ends, by simp only [update_self, black], rfl, rfl, ?_⟩
  show currPlayer g ≠ 0
  rw [turn]
  decide

/-- Black's client ends when its player mates, and nothing is sent. -/
theorem foolsMate_ends :
    ∃ history s, Execution (System.start fun _ => blank) history s ∧
      s.ended 1 = some .blackWin ∧ s.ended 0 = none ∧ s.pipe 0 = [] ∧
        currPlayer (s.game 0) ≠ 0 := by
  obtain ⟨zero, black, -, mates⟩ := opening_codes
  have moves : named foolsMate = opening := by decide
  have queen : apiGetMove foolsQueen.1 foolsQueen.2 = matingMove := by decide
  have turn : currPlayer (replay (newGame blank) opening).2 = 1 := by
    rw [currPlayer, black]
    rfl
  have sound := newGame_sound blank
  obtain ⟨history, exec⟩ := Execution.exchanges foolsMate sound
    (by rw [moves]; exact fun call mem => (zero call mem).ge) ⟨[], Execution.start⟩
  rw [moves] at exec
  have returns := ((Run.start.replayed sound opening).sound sound).played matingMove
  rw [mates, ← queen] at returns
  exact exec.mates turn returns

/-- Black reports the win, and White's client cannot. -/
theorem result_alone_mate :
    ∃ history s, Execution (System.start fun _ => blank) history s ∧
      s.ended 1 = some .blackWin ∧ s.ended (peer 1) ≠ some .blackWin := by
  obtain ⟨history, s, exec, black, -⟩ := foolsMate_ends
  exact ⟨history, s, exec, black, (exec.result_alone black (Or.inr (Or.inl rfl))).1⟩

/-- After the shortest mate Black's client reports the win and White's an I/O error. -/
theorem mate_not_shared :
    ∃ history s, Execution (System.start fun _ => blank) history s ∧
      s.ended 1 = some .blackWin ∧ s.ended 0 = some .ioError := by
  obtain ⟨history, s, exec, black, running, drained, waiting⟩ := foolsMate_ends
  have gone : s.ended (peer 0) ≠ none := by
    show s.ended 1 ≠ none
    rw [black]
    exact Option.some_ne_none _
  have lost : endMsg ioError = some .ioError := by decide
  exact ⟨_, _, exec.step (.eof running waiting drained gone parseOpMove_eof), black,
    by simp only [update_self, lost]⟩

end Chessh
