import Chessh.Rules.Contest
import Chessh.Verif.Clock
import Chessh.Verif.Listing

/-!
# `make_move` as an umpire

A game stands for a contest when it tracks the position and its clock is that of the contest. The
code of every call is then what an umpire says to the move, `Stands.made`, and a run that reports no
end keeps the game in step with the contest: `Run.umpired`.
-/

namespace Chessh

open Rules (Side Kind Man Square Wing Ply Position Inside InCheck Contest Outcome Answer)

/-- The code for how a contest stands. -/
def outcomeCode : Outcome → Int
  | .goesOn => 0
  | .offer => drawOffer
  | .draw => forcedDraw
  | .win .white => whiteWin
  | .win .black => blackWin

/-- The code for what an umpire says. -/
def answerCode : Answer → Int
  | .illegal => illegalMove
  | .unnamed => missingPromotion
  | .played outcome => outcomeCode outcome

/-- The game stands for the contest. -/
structure Stands (g : Game) (c : Contest) : Prop where
  /-- It tracks the position. -/
  tracks : Tracks g c.pos
  /-- The clock is that of the contest. -/
  clock : clock g = c.quiet

section Codes

/-- The codes of a contest that is over are negative, and no others are. -/
theorem outcomeCode_neg (outcome : Outcome) : outcomeCode outcome < 0 ↔ outcome.Over := by
  unfold Outcome.Over
  cases outcome with
  | win side => cases side <;> decide
  | goesOn | offer | draw => decide

/-- A move that is played has another code than one that is not. -/
theorem outcomeCode_accepted (outcome : Outcome) : Accepted (outcomeCode outcome) := by
  cases outcome with
  | win side => cases side <;> decide
  | goesOn | offer | draw => decide

end Codes

section Call

variable {g after : Game} {pos : Position} {c : Contest} {m : Move} {code : Int}

/-- A promotion is named exactly when a rook, a knight, a bishop or a queen is. -/
theorem promotion_iff (last : m.ply.target.1 = pos.turn.lastRow) :
    pos.Promotion m.ply ↔ m.promotion.isPromotion = true := by
  rw [isPromotion_iff]
  exact ⟨fun named => named last, fun named _ => named⟩

/-- An umpire asks what a pawn becomes when it may go to its last row and names no piece. -/
theorem Tracks.unnamed_iff (tracks : Tracks g pos) :
    pos.Unnamed m.ply ↔ m.promotion.isPromotion = false ∧ ∃ captured, Promotes g m captured := by
  have queen : pos.Promotion (m.named .queen).ply := fun _ => ⟨.queen, rfl, Or.inl rfl⟩
  constructor
  · rintro ⟨insideS, insideT, pawn, last, missing, pseudo⟩
    have type := (man_eq_some.mp ((tracks.get _ _).symm.trans pawn)).1
    have mine : Mine g (m.named .queen) (getPlayer g) :=
      tracks.mine_iff.mpr ⟨insideS, insideT, ⟨_, pawn⟩, pseudo.free⟩
    have goes := (tracks.pawnGoes_iff mine type queen).mpr ⟨pseudo, rfl⟩
    have row := (lastRow_iff (mine.owner.trans tracks.turn)).mpr last
    refine ⟨?_, _, mine.named m.promotion, type, goes, row⟩
    rwa [promotion_iff last, Bool.not_eq_true] at missing
  · rintro ⟨unnamed, captured, mine, type, goes, row⟩
    obtain ⟨insideS, insideT, -, -⟩ := tracks.mine_iff.mp mine
    obtain ⟨kind, own, type'⟩ := tracks.mover mine
    obtain rfl : kind = .pawn := typeOf_inj.mp (type'.symm.trans type)
    have last : m.ply.target.1 = pos.turn.lastRow :=
      (lastRow_iff (mine.owner.trans tracks.turn)).mp row
    refine ⟨insideS, insideT, own, last, ?_, ?_⟩
    · rw [promotion_iff last, unnamed]
      decide
    · exact ((tracks.pawnGoes_iff (mine.named .queen) type queen).mp goes).1

/-- `MISSING_PROMOTION` is the answer to the moves an umpire would ask about. -/
theorem Tracks.missing_iff (tracks : Tracks g pos) (returns : Returns g m code after) :
    code = missingPromotion ↔ pos.Unnamed m.ply := by
  rw [tracks.unnamed_iff]
  constructor
  · rintro rfl
    exact (returns.missing tracks.sound).2
  · rintro ⟨unnamed, captured, promotes⟩
    exact (returns.unique (promotes.missing tracks.sound unnamed)).1

/-- What is reported after a move is how the contest stands. -/
theorem Reports.stands {player : Player} {next : Contest}
    (reports : Reports player after next.pos code)
    (time : Chessh.clock after = next.quiet) (mover : player = playerOf next.pos.turn.other) :
    code = outcomeCode next.outcome := by
  unfold Contest.outcome
  cases reports with
  | expired late result =>
    rw [if_pos (by omega)]
    exact result
  | offered late early result =>
    rw [if_neg (by omega), if_pos (by omega)]
    exact result
  | continued early reply result =>
    rw [if_neg (by omega), if_neg (by omega), if_pos reply]
    exact result
  | mated early mated result =>
    rw [if_neg (by omega), if_neg (by omega), if_neg (not_not.mpr mated.2), if_pos mated.1, result,
      mover]
    cases next.pos.turn.other <;> rfl
  | stalemated early stuck safe result =>
    rw [if_neg (by omega), if_neg (by omega), if_neg (not_not.mpr stuck), if_neg safe]
    exact result

/-- A call on a game that stands for a contest has the code of what an umpire says, and as long as
the contest goes on the games stay in step. -/
theorem Stands.made (stands : Stands g c) (returns : Returns g m code after) :
    code = answerCode (c.answer m.ply) ∧ (0 ≤ code → Stands after (c.play m.ply)) := by
  have made := returns.made stands.tracks.sound
  unfold Contest.answer
  rcases stands.tracks.made made with ⟨refused, illegal⟩ | ⟨accepted, legal, -, next, reports⟩
  · rw [if_neg illegal]
    refine ⟨?_, fun nonneg => absurd (accepted_of_nonneg nonneg) refused⟩
    have missing := stands.tracks.missing_iff returns
    split
    · rename_i unnamed
      exact missing.mpr unnamed
    · rename_i named
      by_contra other
      exact refused ⟨other, mt missing.mp named⟩
  · rw [if_pos legal]
    have time : Chessh.clock after = (c.play m.ply).quiet := by
      rw [stands.tracks.clock_after made accepted, stands.clock, Contest.play]
      split <;> simp
    refine ⟨?_, fun nonneg => ⟨next nonneg, time⟩⟩
    refine reports.stands time ?_
    rw [stands.tracks.turn]
    exact congrArg playerOf (Side.other_other c.pos.turn).symm

/-- The code is that of a contest that goes on exactly when the move is legal and the contest goes
on. -/
theorem Stands.nonneg_iff (stands : Stands g c) (returns : Returns g m code after) :
    0 ≤ code ↔ c.pos.Legal m.ply ∧ ¬ (c.play m.ply).outcome.Over := by
  rw [(stands.made returns).1]
  unfold Contest.answer
  split
  · rename_i legal
    rw [← outcomeCode_neg, not_lt, and_iff_right legal]
    rfl
  · rename_i illegal
    refine iff_of_false ?_ fun both => illegal both.1
    split <;> decide

/-- The code is that of a move that is played exactly when the move is legal. -/
theorem Stands.accepted_iff (stands : Stands g c) (returns : Returns g m code after) :
    Accepted code ↔ c.pos.Legal m.ply := by
  rw [(stands.made returns).1]
  unfold Contest.answer
  split
  · rename_i legal
    exact iff_of_true (outcomeCode_accepted _) legal
  · rename_i illegal
    refine iff_of_false ?_ illegal
    split <;> decide

end Call

/-! ## Runs -/

/-- A run of calls that report no end is a sequence that the contest survives, and keeps the game in
step with it. -/
theorem Stands.run {start g : Game} {c : Contest} {calls : List (Move × Int)}
    (stands : Stands start c) (run : Run start calls g) (going : ∀ call ∈ calls, 0 ≤ call.2) :
    c.Survives (plies calls) ∧ Stands g (c.plays (plies calls)) := by
  induction run with
  | start => exact ⟨trivial, stands⟩
  | @step calls g m code after run returns ih =>
    obtain ⟨survives, here⟩ := ih fun call mem => going call (List.mem_append_left _ mem)
    have nonneg := going (m, code) (List.mem_append_right _ List.mem_cons_self)
    have moves : plies (calls ++ [(m, code)]) = plies calls ++ [m.ply] := plies_append _ _
    rw [moves, Contest.survives_concat, Contest.plays_append]
    exact ⟨⟨survives, (here.nonneg_iff returns).mp nonneg⟩, (here.made returns).2 nonneg⟩

/-- A new game stands for the contest from the starting position. -/
theorem newGame_stands (memory : Game) : Stands (newGame memory) Contest.start :=
  ⟨newGame_tracks memory, rfl⟩

/-- The calls of a run report no end exactly when the contest survives their moves. -/
theorem Stands.survives_iff {start g : Game} {c : Contest} {calls : List (Move × Int)}
    (stands : Stands start c) (run : Run start calls g) :
    (∀ call ∈ calls, 0 ≤ call.2) ↔ c.Survives (plies calls) := by
  refine ⟨fun going => (stands.run run going).1, fun survives => ?_⟩
  induction run with
  | start => exact List.forall_mem_nil _
  | @step calls g m code after run returns ih =>
    have moves : plies (calls ++ [(m, code)]) = plies calls ++ [m.ply] := plies_append _ _
    rw [moves, Contest.survives_concat] at survives
    have going := ih survives.1
    have here := (stands.run run going).2
    intro call mem
    rcases List.mem_append.mp mem with earlier | last
    · exact going call earlier
    · rw [List.mem_singleton.mp last]
      exact (here.nonneg_iff returns).mpr survives.2

/-- The calls of a run from a new game report no end exactly when their moves are ones that the
contest survives. The next call, whatever its move, then returns the code of what an umpire says to
it: illegal, to be asked what the pawn becomes, or how the contest stands after it. -/
theorem Run.umpired {memory g : Game} {calls : List (Move × Int)}
    (run : Run (newGame memory) calls g) :
    ((∀ call ∈ calls, 0 ≤ call.2) ↔ Contest.start.Survives (plies calls)) ∧
      (Contest.start.Survives (plies calls) → ∀ m : Move, ∃ after, Returns g m
        (answerCode ((Contest.start.plays (plies calls)).answer m.ply)) after) := by
  have survives := (newGame_stands memory).survives_iff run
  refine ⟨survives, fun going m => ?_⟩
  have stands := ((newGame_stands memory).run run (survives.mpr going)).2
  obtain ⟨code, after, returns, -⟩ := stands.tracks.sound.returns m
  rw [← (stands.made returns).1]
  exact ⟨after, returns⟩

/-- After one move of each player the next call is judged by an umpire. -/
theorem umpired_opening :
    let calls := (replay (newGame blank) [⟨6, 4, 4, 4, .empty⟩, ⟨1, 4, 3, 4, .empty⟩]).1
    let g := (replay (newGame blank) [⟨6, 4, 4, 4, .empty⟩, ⟨1, 4, 3, 4, .empty⟩]).2
    Contest.start.Survives (plies calls) ∧
      ∀ m : Move, ∃ after, Returns g m
        (answerCode ((Contest.start.plays (plies calls)).answer m.ply)) after := by
  obtain ⟨⟨-, nonneg⟩, -⟩ := first_moves_codes
  obtain ⟨going, judged⟩ := Run.umpired (Run.start.replayed (newGame_sound blank)
    [⟨6, 4, 4, 4, .empty⟩, ⟨1, 4, 3, 4, .empty⟩])
  have survives := going.mp fun call mem => (nonneg call mem).2
  exact ⟨survives, judged survives⟩

end Chessh
