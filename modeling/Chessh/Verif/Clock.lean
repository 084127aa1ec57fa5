import Chessh.Verif.Chess

/-!
# The draw clock

`last_big_move` is documented as the last capture or pawn move. It is the last capture:
nothing winds the clock back for a pawn that merely advances. `Run.clock_iff` says when the
field is what it is documented to be.
-/

namespace Chessh

open Rules (Side Kind Man Square Wing Ply Position Reaches Attacked InCheck Inside)

section Clock

variable {g after : Game} {pos : Position} {m : Move} {code : Int}

/-- An accepted move is a turn, and a big move when it takes something. -/
theorem Tracks.turn_after (tracks : Tracks g pos) (made : Made g m code after)
    (played : Accepted code) :
    after.duration = g.duration + 1 ∧
      after.lastBigMove = if pos.Captures m.ply then g.duration + 1 else g.lastBigMove := by
  rcases made.effect tracks.sound with
    ⟨refused, -⟩ | ⟨-, v, landing, judged, ok, -, landed, -, scribbled⟩
  · exact absurd played refused
  obtain ⟨-, captured, -⟩ := tracks.pseudo judged ok
  have taken : ((g.get m.rF m.cF).type ≠ .empty ∨ v.captured ≠ none) ↔ pos.Captures m.ply := by
    rw [captured]
    exact or_congr_left (not_congr (tracks.free _ _).symm)
  refine ⟨scribbled.duration.trans landed.duration, scribbled.big.trans (landed.big.trans ?_)⟩
  simp only [taken]

/-- The clock after an accepted move: a capture winds it back, any other move advances it. -/
theorem Tracks.clock_after (tracks : Tracks g pos) (made : Made g m code after)
    (played : Accepted code) :
    clock after = if pos.Captures m.ply then 0 else clock g + 1 := by
  obtain ⟨turn, big⟩ := tracks.turn_after made played
  unfold clock
  rw [turn, big]
  split <;> ring

end Clock

/-- Along a run of accepted calls the number of turns is the number of calls, and the last
big move is the last capture. -/
theorem Run.last_capture {memory g : Game} {calls : List (Move × Int)}
    (run : Run (newGame memory) calls g) (accepted : ∀ call ∈ calls, Accepted call.2) :
    g.duration = (plies calls).length ∧
      g.lastBigMove = Rules.initial.lastTurn Position.Captures (plies calls) := by
  induction run with
  | start => exact ⟨rfl, rfl⟩
  | @step calls g m code after run returns ih =>
    have earlier : ∀ call ∈ calls, Accepted call.2 :=
      fun call mem => accepted call (List.mem_append_left _ mem)
    have played := accepted (m, code) (List.mem_append_right _ List.mem_cons_self)
    obtain ⟨duration, big⟩ := ih earlier
    obtain ⟨follows, -⟩ := run.follows earlier
    have made := returns.made follows.sound
    rcases follows.made made with ⟨refused, -⟩ | ⟨tracks, -, -⟩
    · exact absurd played refused
    obtain ⟨turn, marked⟩ := tracks.turn_after made played
    have moves : plies (calls ++ [(m, code)]) = plies calls ++ [m.ply] := plies_append _ _
    rw [moves, Position.lastTurn_append]
    refine ⟨by rw [turn, duration, List.length_append]; rfl, ?_⟩
    rw [marked]
    split
    · rw [duration]
      rfl
    · exact big

/-- A capture or a pawn move. -/
def BigMove (pos : Position) (m : Ply) : Prop := pos.PawnMove m ∨ pos.Captures m

instance (pos : Position) (m : Ply) : Decidable (BigMove pos m) :=
  inferInstanceAs (Decidable (_ ∨ _))

/-- After every accepted move the field holds the turn of the last capture or pawn move, and
draws for another reason than stalemate come only after a hundred, or a hundred and fifty,
turns without one, if and only if no pawn has moved since the last capture. -/
theorem Run.clock_iff {memory g : Game} {calls : List (Move × Int)}
    (run : Run (newGame memory) calls g) (accepted : ∀ call ∈ calls, Accepted call.2)
    {m : Move} {code : Int} {after : Game} (returns : Returns g m code after)
    (played : Accepted code) :
    (after.lastBigMove = Rules.initial.lastTurn BigMove (plies (calls ++ [(m, code)])) ∧
      (code = drawOffer →
        100 ≤ after.duration - Rules.initial.lastTurn BigMove (plies (calls ++ [(m, code)]))) ∧
      (code = forcedDraw →
        ¬ ((Rules.initial.plays (plies (calls ++ [(m, code)]))).Stuck ∧
          ¬ InCheck (Rules.initial.plays (plies (calls ++ [(m, code)]))).board
            (Rules.initial.plays (plies (calls ++ [(m, code)]))).turn) →
        150 ≤ after.duration - Rules.initial.lastTurn BigMove (plies (calls ++ [(m, code)])))) ↔
    Rules.initial.lastTurn Position.PawnMove (plies (calls ++ [(m, code)])) ≤
      Rules.initial.lastTurn Position.Captures (plies (calls ++ [(m, code)])) := by
  have played' : ∀ call ∈ calls ++ [(m, code)], Accepted call.2 := by
    intro call mem
    rcases List.mem_append.mp mem with mem | mem
    · exact accepted call mem
    · rw [List.mem_singleton.mp mem]
      exact played
  obtain ⟨-, big⟩ := (run.step returns).last_capture played'
  have later : Rules.initial.lastTurn BigMove (plies (calls ++ [(m, code)])) =
      max (Rules.initial.lastTurn Position.PawnMove (plies (calls ++ [(m, code)])))
        (Rules.initial.lastTurn Position.Captures (plies (calls ++ [(m, code)]))) :=
    Rules.initial.lastTurn_or Position.PawnMove Position.Captures _
  constructor
  · rintro ⟨same, -⟩
    omega
  intro condition
  have same : after.lastBigMove =
      Rules.initial.lastTurn BigMove (plies (calls ++ [(m, code)])) := by omega
  obtain ⟨follows, -⟩ := run.follows accepted
  have made := returns.made follows.sound
  rcases follows.made made with ⟨refused, -⟩ | ⟨tracks, -, -⟩
  · exact absurd played refused
  rcases tracks.made made with ⟨refused, -⟩ | ⟨-, -, -, -, reports⟩
  · exact absurd played refused
  have next : Rules.initial.plays (plies (calls ++ [(m, code)])) =
      (Rules.initial.plays (plies calls)).play m.ply := by
    rw [plies_append, Position.plays_append]
    rfl
  rw [next, ← same]
  refine ⟨rfl, reports.offer, fun draw reason => ?_⟩
  exact (reports.forced draw).resolve_right reason

/-- After a capture that follows every pawn move the field is right. -/
theorem clock_iff_capture :
    let moves : List Move :=
      [⟨6, 4, 4, 4, .empty⟩, ⟨1, 3, 3, 3, .empty⟩]
    let taking : Move := ⟨4, 4, 3, 3, .empty⟩
    (play (replay (newGame blank) moves).2 taking).2.lastBigMove =
      Rules.initial.lastTurn BigMove (plies ((replay (newGame blank) moves).1 ++
        [(taking, (play (replay (newGame blank) moves).2 taking).1)])) := by
  intro moves taking
  have run := Run.start.replayed (newGame_sound blank) moves
  have returns := (run.sound (newGame_sound blank)).played taking
  have facts : (∀ call ∈ [] ++ (replay (newGame blank) moves).1, Accepted call.2) ∧
      Accepted (play (replay (newGame blank) moves).2 taking).1 := by
    decide +kernel
  have clock := Run.clock_iff run facts.1 returns facts.2
  exact (clock.mpr (by decide +kernel)).1

/-- A pawn that advances is not recorded. -/
theorem pawn_move_missed :
    ∃ after, Run (newGame blank) [(⟨6, 4, 4, 4, .empty⟩, 0)] after ∧ Accepted 0 ∧
      after.lastBigMove = 0 ∧
      Rules.initial.lastTurn BigMove (plies [(⟨6, 4, 4, 4, .empty⟩, 0)]) = 1 := by
  have returns := (newGame_sound blank).played ⟨6, 4, 4, 4, .empty⟩
  have code : (play (newGame blank) ⟨6, 4, 4, 4, .empty⟩).1 = 0 := by decide +kernel
  rw [code] at returns
  exact ⟨_, Run.start.step returns, by decide, by decide +kernel, by decide +kernel⟩

end Chessh
