import Chessh.Verif.Clock

/-!
# Checkmate and stalemate

The verdict of a call is the one the rules give, except that two tests of the draw clock
come first. `Run.verdict_iff` says exactly when they hide a mate or a stalemate, and
`late_mate_missed` plays a game in which they do.
-/

namespace Chessh

open Rules (Side Kind Man Square Wing Ply Position Reaches Attacked InCheck Inside)

section Quiet

variable {g : Game} {pos : Position} {m : Move}

/-- A quiet move that leaves the opponent a reply, with time on the clock, is played and
reported as nothing special. -/
theorem Tracks.quiet (tracks : Tracks g pos) (legal : pos.Legal m.ply)
    (quiet : ¬ pos.Captures m.ply) (reply : ¬ (pos.play m.ply).Stuck) (early : clock g + 1 < 100) :
    ∃ after, Returns g m 0 after ∧ Tracks after (pos.play m.ply) ∧
      clock after = clock g + 1 := by
  obtain ⟨code, after, returns, made⟩ := tracks.sound.returns m
  rcases tracks.made made with ⟨-, illegal⟩ | ⟨played, -, -, next, reports⟩
  · exact absurd legal illegal
  have time := tracks.clock_after made played
  rw [if_neg quiet] at time
  obtain rfl : code = 0 := by
    cases reports with
    | continued _ _ zero => exact zero
    | expired late | offered late => omega
    | mated _ mated => exact absurd mated.2 reply
    | stalemated _ stuck => exact absurd stuck reply
  exact ⟨after, returns, next le_rfl, time⟩

end Quiet

/-- A report tells mates and ends of the game rightly when the draw clock does not come first. -/
theorem Reports.rightly_iff {player : Player} (known : player = .white ∨ player = .black)
    {after : Game} {next : Position} {code : Int} (reports : Reports player after next code) :
    ((code = whiteWin ↔ player = .white ∧ next.Mated) ∧
      (code = blackWin ↔ player = .black ∧ next.Mated) ∧ (next.Stuck → code < 0)) ↔
    (clock after < 100 ∨ ¬ next.Stuck ∨
      (150 ≤ clock after ∧ ¬ InCheck next.board next.turn)) := by
  cases reports with
  | expired late result =>
    rw [result]
    simp only [show (forcedDraw = whiteWin) = False by decide,
      show (forcedDraw = blackWin) = False by decide, show (forcedDraw < 0) = True by decide,
      false_iff, imp_true_iff, and_true]
    have notEarly : ¬ clock after < 100 := by omega
    simp only [notEarly, late, true_and, false_or, Position.Mated]
    rcases known with player | player <;> simp only [player, reduceCtorEq] <;> tauto
  | offered late early result =>
    rw [result]
    simp only [show (drawOffer = whiteWin) = False by decide,
      show (drawOffer = blackWin) = False by decide, show (drawOffer < 0) = False by decide,
      false_iff]
    have notEarly : ¬ clock after < 100 := by omega
    have notLate : ¬ 150 ≤ clock after := by omega
    simp only [notEarly, notLate, false_and, or_false, false_or, Position.Mated]
    tauto
  | continued early free result =>
    rw [result]
    simp only [show ((0 : Int) = whiteWin) = False by decide,
      show ((0 : Int) = blackWin) = False by decide, Position.Mated, free, and_false, false_implies,
      early, true_or, iff_self, and_self, not_false_eq_true, or_true]
  | mated early mated result =>
    rw [result]
    apply iff_of_true
    · rcases known with player | player <;> rw [player] <;> simp [mated, whiteWin, blackWin]
    · exact Or.inl early
  | stalemated early stuck safe result =>
    rw [result]
    apply iff_of_true
    · simp [Position.Mated, safe, forcedDraw, whiteWin, blackWin]
    · exact Or.inl early

/-- Along every run of accepted calls the next accepted call reports a win exactly when the
rules do, and an end of the game whenever the opponent has no move, if and only if the move
captures, or the clock is still short of its first mark, or the opponent has a move, or the
clock has run out and the opponent is not in check. -/
theorem Run.verdict_iff {memory g : Game} {calls : List (Move × Int)}
    (run : Run (newGame memory) calls g) (accepted : ∀ call ∈ calls, Accepted call.2)
    {m : Move} {code : Int} {after : Game} (returns : Returns g m code after)
    (played : Accepted code) :
    ((code = whiteWin ↔ getPlayer g = .white ∧
        ((Rules.initial.plays (plies calls)).play m.ply).Mated) ∧
      (code = blackWin ↔ getPlayer g = .black ∧
        ((Rules.initial.plays (plies calls)).play m.ply).Mated) ∧
      (((Rules.initial.plays (plies calls)).play m.ply).Stuck → code < 0)) ↔
    ((Rules.initial.plays (plies calls)).Captures m.ply ∨ clock g + 1 < 100 ∨
      ¬ ((Rules.initial.plays (plies calls)).play m.ply).Stuck ∨
      (150 ≤ clock g + 1 ∧ ¬ InCheck ((Rules.initial.plays (plies calls)).play m.ply).board
        ((Rules.initial.plays (plies calls)).play m.ply).turn)) := by
  obtain ⟨follows, -⟩ := run.follows accepted
  generalize Rules.initial.plays (plies calls) = pos at follows ⊢
  have made := returns.made follows.sound
  rcases follows.made made with ⟨refused, -⟩ | ⟨tracks, -, -⟩
  · exact absurd played refused
  rcases tracks.made made with ⟨refused, -⟩ | ⟨-, -, -, -, reports⟩
  · exact absurd played refused
  rw [reports.rightly_iff (getPlayer_known g)]
  -- the condition speaks of the clock before the move
  have time := tracks.clock_after made played
  by_cases capture : pos.Captures m.ply
  · rw [if_pos capture] at time
    exact iff_of_true (Or.inl (by omega)) (Or.inl capture)
  · rw [if_neg capture] at time
    rw [time]
    exact ⟨Or.inr, fun h => h.resolve_left capture⟩

/-- A quick reply leaves the opponent a move, since it is not reported as an end. -/
theorem verdict_iff_opening :
    ¬ ((Rules.initial.plays (plies
      (replay (newGame blank) [⟨6, 4, 4, 4, .empty⟩]).1)).play ⟨(1, 4), (3, 4), none⟩).Stuck := by
  have run := Run.start.replayed (newGame_sound blank) [⟨6, 4, 4, 4, .empty⟩]
  have returns := (run.sound (newGame_sound blank)).played ⟨1, 4, 3, 4, .empty⟩
  have facts : (play (replay (newGame blank) [⟨6, 4, 4, 4, .empty⟩]).2 ⟨1, 4, 3, 4, .empty⟩).1 = 0 ∧
      (∀ call ∈ [] ++ (replay (newGame blank) [⟨6, 4, 4, 4, .empty⟩]).1, Accepted call.2) ∧
      clock (replay (newGame blank) [⟨6, 4, 4, 4, .empty⟩]).2 + 1 < 100 := by
    decide +kernel
  obtain ⟨code, accepted, early⟩ := facts
  have verdict := Run.verdict_iff run accepted returns (by rw [code]; decide)
  intro stuck
  have ended := (verdict.mpr (Or.inr (Or.inl early))).2.2 stuck
  rw [code] at ended
  exact lt_irrefl 0 ended

/-! ## A mate that is not reported -/

/-- A run can be continued by quiet moves as long as another move follows and there is time
on the clock. -/
theorem Tracks.extend {start g : Game} {calls : List (Move × Int)} {pos : Position}
    (tracks : Tracks g pos) (run : Run start calls g) (last : Ply) :
    ∀ moves : List Move, pos.Lawful (moves.map Move.ply ++ [last]) →
      pos.Quiet (moves.map Move.ply) → clock g + moves.length < 100 →
      ∃ more after, Run start (calls ++ more) after ∧ more.map Prod.fst = moves ∧
        (∀ call ∈ more, call.2 = 0) ∧ Tracks after (pos.plays (moves.map Move.ply)) ∧
        clock after = clock g + moves.length := by
  intro moves
  induction moves generalizing g calls pos with
  | nil =>
    intro _ _ _
    exact ⟨[], g, by simpa using run, rfl, by simp, tracks, by simp⟩
  | cons m rest ih =>
    intro lawful quiet early
    obtain ⟨legal, lawful⟩ := lawful
    obtain ⟨still, quiet⟩ := quiet
    have reply : ¬ (pos.play m.ply).Stuck := by
      intro stuck
      cases rest with
      | nil => exact stuck _ lawful.1
      | cons n rest => exact stuck _ lawful.1
    simp only [List.length_cons] at early
    push_cast at early
    obtain ⟨after, returns, next, time⟩ := tracks.quiet legal still reply (by omega)
    obtain ⟨more, final, run', moves, zero, tracks', time'⟩ :=
      ih next (run.step returns) lawful quiet (by omega)
    refine ⟨(m, 0) :: more, final, ?_, ?_, ?_, tracks', ?_⟩
    · simpa using run'
    · rw [List.map_cons, moves]
    · intro call mem
      rcases List.mem_cons.mp mem with rfl | mem
      · rfl
      · exact zero call mem
    · rw [time', time]
      simp only [List.length_cons]
      push_cast
      ring

/-- What the engine plays without reporting an end is lawful. -/
theorem Tracks.replayed {g : Game} {pos : Position} (tracks : Tracks g pos) :
    ∀ moves : List Move, (∀ call ∈ (replay g moves).1, 0 ≤ call.2) →
      pos.Lawful (moves.map Move.ply) ∧
        Tracks (replay g moves).2 (pos.plays (moves.map Move.ply)) := by
  intro moves
  induction moves generalizing g pos with
  | nil => exact fun _ => ⟨trivial, tracks⟩
  | cons m rest ih =>
    intro nonneg
    have here : 0 ≤ (play g m).1 := nonneg _ List.mem_cons_self
    have made := (tracks.sound.played m).made tracks.sound
    rcases tracks.made made with ⟨refused, -⟩ | ⟨-, legal, -, next, -⟩
    · exact absurd (⟨by rintro h; rw [h] at here; exact absurd here (by decide),
        by rintro h; rw [h] at here; exact absurd here (by decide)⟩ : Accepted _) refused
    · obtain ⟨lawful, final⟩ :=
        ih (next here) fun call mem => nonneg call (List.mem_cons_of_mem _ mem)
      exact ⟨⟨legal, lawful⟩, final⟩

/-- Both players bring out a knight and take it back. -/
def shuffle : List Move :=
  [⟨7, 1, 5, 2, .empty⟩, ⟨0, 1, 2, 2, .empty⟩, ⟨5, 2, 7, 1, .empty⟩, ⟨2, 2, 0, 1, .empty⟩]

/-- The shuffle is played, and White's knight comes out again. -/
theorem shuffle_lawful :
    Rules.initial.Lawful (shuffle.map Move.ply ++ [Move.ply ⟨7, 1, 5, 2, .empty⟩]) := by
  have replayed := (newGame_tracks blank).replayed (shuffle ++ [⟨7, 1, 5, 2, .empty⟩])
    (by decide +kernel)
  rw [List.map_append, List.map_singleton] at replayed
  exact replayed.1

/-- The shuffle leads back to the starting position. -/
theorem plays_shuffle : Rules.initial.plays (shuffle.map Move.ply) = Rules.initial := by
  have wf := Rules.initial_wellFormed.plays _ (Position.lawful_append.mp shuffle_lawful).1
  have board : (Rules.initial.plays (shuffle.map Move.ply)).board = Rules.initialBoard := by
    funext s
    obtain ⟨r, c⟩ := s
    by_cases on : OnBoard r c
    · obtain ⟨i, j, rfl, rfl⟩ := on.exists_fin
      revert i j
      decide
    · have nobody : ∀ pos : Position, pos.WellFormed → pos.board (r, c) = none := by
        intro pos wf
        cases there : pos.board (r, c) with
        | none => rfl
        | some man => exact absurd (wf.inside _ _ there) on
      exact (nobody _ wf).trans (nobody _ Rules.initial_wellFormed).symm
  have rights : (Rules.initial.plays (shuffle.map Move.ply)).rights = fun _ _ => True := by
    funext side wing
    refine propext (iff_of_true ?_ trivial)
    cases side <;> cases wing <;>
      simp [Position.plays, Position.play, shuffle, Move.ply, Rules.initial, Ply.Touches,
        Side.homeRow, Wing.corner]
  calc Rules.initial.plays (shuffle.map Move.ply)
      = ⟨(Rules.initial.plays (shuffle.map Move.ply)).board, .white,
          (Rules.initial.plays (shuffle.map Move.ply)).rights, none⟩ := rfl
    _ = Rules.initial := by rw [board, rights]; rfl

/-- The moves of calls, named or not. -/
theorem plies_eq (calls : List (Move × Int)) : plies calls = (calls.map Prod.fst).map Move.ply := by
  simp [plies, Function.comp_def]

/-- After any number of shuffles short of the first mark of the clock, the game stands at the
start with the clock running. -/
theorem shuffled : ∀ n : Nat, n ≤ 24 → ∃ calls g, Run (newGame blank) calls g ∧
    calls.map Prod.fst = (List.replicate n shuffle).flatten ∧ (∀ call ∈ calls, call.2 = 0) ∧
    Rules.initial.plays (plies calls) = Rules.initial ∧ Tracks g Rules.initial ∧
    clock g = 4 * n := by
  have quiet : Rules.initial.Quiet (shuffle.map Move.ply) := by
    refine ⟨?_, ?_, ?_, ?_, trivial⟩ <;> decide
  intro n
  induction n with
  | zero =>
    intro _
    exact ⟨[], _, Run.start, rfl, by simp, rfl, newGame_tracks blank, rfl⟩
  | succ n ih =>
    intro few
    obtain ⟨calls, g, run, moves, zero, back, tracks, time⟩ := ih (by omega)
    have length : shuffle.length = 4 := rfl
    obtain ⟨more, after, run', moves', zero', tracks', time'⟩ :=
      tracks.extend run _ shuffle shuffle_lawful quiet (by rw [time, length]; omega)
    rw [plays_shuffle] at tracks'
    refine ⟨_, after, run', ?_, ?_, ?_, tracks', ?_⟩
    · rw [List.map_append, moves, moves', List.replicate_succ', List.flatten_append]
      simp
    · intro call mem
      exact (List.mem_append.mp mem).elim (zero call) (zero' call)
    · rw [plies_append, Position.plays_append, back, plies_eq, moves', plays_shuffle]
    · rw [time', time, length]
      push_cast
      ring

/-- The opening leads to a mate in one. -/
theorem opening_mates :
    Rules.initial.Lawful (opening.map Move.ply ++ [matingMove.ply]) ∧
      ((Rules.initial.plays (opening.map Move.ply)).play matingMove.ply).Mated ∧
      ¬ (Rules.initial.plays (opening.map Move.ply)).Captures matingMove.ply := by
  obtain ⟨zero, -, -, code⟩ := opening_codes
  obtain ⟨lawful, tracks⟩ := (newGame_tracks blank).replayed opening fun call mem =>
    (zero call mem).ge
  have made := (tracks.sound.played matingMove).made tracks.sound
  rw [code] at made
  rcases tracks.made made with ⟨refused, -⟩ | ⟨-, legal, -, -, reports⟩
  · exact absurd (by decide) refused
  refine ⟨Position.lawful_append.mpr ⟨lawful, legal, trivial⟩, ?_, by decide⟩
  cases reports with
  | mated _ mated => exact mated
  | expired _ code | offered _ _ code | continued _ _ code | stalemated _ _ _ code =>
    exact absurd code (by decide)

/-- A mate on the hundredth turn without a capture is reported as an offer of a draw, and
the mated player is left to move. -/
theorem late_mate_missed :
    ∃ calls g after, Run (newGame blank) calls g ∧ (∀ call ∈ calls, Accepted call.2) ∧
      calls.map Prod.fst = (List.replicate 24 shuffle).flatten ++ opening ∧
      Returns g matingMove drawOffer after ∧ Accepted drawOffer ∧ 0 ≤ drawOffer ∧
      getPlayer g = .black ∧
      ((Rules.initial.plays (plies calls)).play matingMove.ply).Mated ∧
      ¬ (drawOffer = blackWin ↔ getPlayer g = .black ∧
        ((Rules.initial.plays (plies calls)).play matingMove.ply).Mated) := by
  obtain ⟨calls, g, run, moves, zero, back, tracks, time⟩ := shuffled 24 le_rfl
  obtain ⟨lawful, mated, quiet⟩ := opening_mates
  have still : Rules.initial.Quiet (opening.map Move.ply) := by
    refine ⟨?_, ?_, ?_, trivial⟩ <;> decide
  have length : opening.length = 3 := rfl
  obtain ⟨more, mid, run', moves', zero', tracks', time'⟩ :=
    tracks.extend run _ opening lawful still (by rw [time, length]; omega)
  have reached : Rules.initial.plays (plies (calls ++ more)) =
      Rules.initial.plays (opening.map Move.ply) := by
    rw [plies_append, Position.plays_append, back, plies_eq, moves']
  have player : getPlayer mid = .black := tracks'.turn
  obtain ⟨code, after, returns, made⟩ := tracks'.sound.returns matingMove
  rcases tracks'.made made with ⟨-, illegal⟩ | ⟨played, -, -, -, reports⟩
  · exact absurd (Position.lawful_append.mp lawful).2.1 illegal
  have hundred := tracks'.clock_after made played
  rw [if_neg quiet, time', time, length] at hundred
  obtain rfl : code = drawOffer := by
    cases reports with
    | offered _ _ offered => exact offered
    | expired | continued | mated | stalemated => omega
  refine ⟨calls ++ more, mid, after, run', ?_, by rw [List.map_append, moves, moves'], returns,
    by decide, by decide, player, by rw [reached]; exact mated, ?_⟩
  · intro call mem
    have none : call.2 = 0 := (List.mem_append.mp mem).elim (zero call) (zero' call)
    rw [none]
    decide
  · rw [reached]
    exact fun report => absurd (report.mpr ⟨player, mated⟩) (by decide)

end Chessh
