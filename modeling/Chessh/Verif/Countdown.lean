import Chessh.Verif.Format
import Chessh.Verif.Room

/-!
# The move clock of a loaded game

`init_game` adds the turns that the move number stands for to both `duration` and
`last_big_move`, but the turn of Black only to `duration`. `initGame_clocks_iff` says when the
clocks of the text are those of the game, and with them the turns at which it is drawn as long as
the counters of the game fit an `int`.
-/

namespace Chessh

open Rules (Side Wing numeral clocksText ClocksValid)

/-! ## The clock along a run -/

/-- What the move clock has to do with the code of an accepted call. -/
structure Draws (count : Int) (g : Game) (code : Int) (after : Game) : Prop where
  /-- A draw is offered from the hundredth turn on. -/
  offered : code = drawOffer ↔ 100 ≤ count ∧ count < 150
  /-- It is forced from the hundred and fiftieth on. -/
  forced : 150 ≤ count → code = forcedDraw
  /-- Before, it is forced by stalemate only. -/
  stalemate : code = forcedDraw → 150 ≤ count ∨
    ¬ CanMove after (otherPlayer (getPlayer g)) ∧ ¬ Checked after (otherPlayer (getPlayer g))

/-- The codes of the draws follow the clock. -/
theorem Made.draws {g after : Game} {m : Move} {code : Int} (sound : Sound g)
    (made : Made g m code after) (played : Accepted code) :
    Draws (after.duration - after.lastBigMove) g code after := by
  cases made with
  | refused tried rejected => exact absurd rejected (not_or.mpr played)
  | expired tried clock =>
    exact ⟨⟨fun same => absurd same (by decide), by omega⟩, fun _ => rfl, fun _ => Or.inl clock⟩
  | offered tried clock early =>
    exact ⟨⟨fun _ => ⟨clock, early⟩, fun _ => rfl⟩, by omega, fun same => absurd same (by decide)⟩
  | continued tried clock can =>
    exact ⟨⟨fun same => absurd same (by decide), by omega⟩, by omega,
      fun same => absurd same (by decide)⟩
  | @mated after tried clock stuck check =>
    have scribbled := checkProbe_scribbled (tried.sound sound) (otherPlayer (getPlayer g))
    have won : (if getPlayer g = .white then whiteWin else blackWin) ≠ drawOffer ∧
        (if getPlayer g = .white then whiteWin else blackWin) ≠ forcedDraw := by
      split <;> decide
    rw [scribbled.duration, scribbled.big]
    exact ⟨⟨fun same => absurd same won.1, by omega⟩, by omega, fun same => absurd same won.2⟩
  | stalemated tried clock stuck safe =>
    exact ⟨⟨fun same => absurd same (by decide), by omega⟩, by omega,
      fun _ => Or.inr ⟨stuck, safe⟩⟩

/-- As long as nothing is taken, the clock counts the accepted calls. -/
theorem Run.countdown {start g : Game} {calls : List (Move × Int)} (sound : Sound start)
    (run : Run start calls g) :
    (men g).card ≤ (men start).card ∧ ((men g).card = (men start).card →
      g.duration - g.lastBigMove = start.duration - start.lastBigMove + accepted calls) := by
  induction run with
  | start => exact ⟨le_rfl, fun _ => (add_zero _).symm⟩
  | step run returns ih =>
    have sound' := run.sound sound
    obtain ⟨fewer, counts⟩ := ih
    rw [accepted_step]
    rcases (returns.made sound').count sound' with
      ⟨refused, time, count, kept⟩ | ⟨played, time, -, changed⟩
    · rw [if_neg refused]
      refine ⟨by omega, fun same => ?_⟩
      have before := counts (by omega)
      push_cast
      omega
    · rw [if_pos played]
      rcases changed with ⟨count, marked⟩ | ⟨count, kept⟩
      · exact ⟨by omega, fun same => by omega⟩
      · refine ⟨by omega, fun same => ?_⟩
        have before := counts (by omega)
        push_cast
        omega

/-! ## The clocks of the text -/

/-- The side to move, as a number of turns. -/
def sideTurn : Side → Int
  | .white => 0
  | .black => 1

/-- The game has the clocks of its text, and as long as nothing is taken and the counters fit an
`int` the draws come when they have run down. -/
structure ClocksLoaded (side : Side) (half full : Nat) (loaded : Game) : Prop where
  /-- The turns before the move, and before the side to move. -/
  duration : loaded.duration = 2 * ((full : Int) - 1) + sideTurn side
  /-- The side to move. -/
  player : getPlayer loaded = playerOf side
  /-- The half-move clock. -/
  clock : loaded.duration - loaded.lastBigMove = half
  /-- There is room for one more call exactly as long as both numbers are so far from the largest
  `int`. -/
  room : ∀ calls g, Run loaded calls g → (men g).card = (men loaded).card →
    (Room 1 g ↔ 2 * full + sideTurn side + accepted calls ≤ intMax ∧
      half + accepted calls + 1 ≤ intMax)
  /-- The draws by the clock. -/
  draws : ∀ calls g m code after, Run loaded calls g → Room 1 g → Returns g m code after →
    Accepted code → (men after).card = (men loaded).card →
    Draws (half + accepted calls + 1) g code after

section Loaded

variable {g loaded : Game} {q : Scan} {s x : Int × Int} {half full : List Char}

/-- The clocks of a loaded game: the turn of Black is counted among those without a capture. -/
theorem loaded_clocks (reads : q.Reads g s x) (clocks : q.clocks = some (half, full))
    (accepted : initGame g q.text = some (0, loaded)) :
    loaded.duration = 2 * ((numeral full : Int) - 1) + sideTurn q.front.side ∧
      loaded.duration - loaded.lastBigMove = numeral half + sideTurn q.front.side := by
  have fits := reads.accepts_iff.mp ⟨loaded, accepted⟩
  rw [initGame_fits reads fits] at accepted
  have after : (clocked (q.front.loaded g) x q.clocks).2 = loaded :=
    congrArg Prod.snd (Option.some.inj accepted)
  have turn : (q.front.loaded g).duration = sideTurn q.front.side := by
    rw [Front.loaded, grant_duration]
    cases q.front.side <;> rfl
  rw [clocks] at after
  have duration :
    loaded.duration = (q.front.loaded g).duration + ((numeral full : Int) - 1) * 2 := by
    rw [← after]
    rfl
  have big : loaded.lastBigMove = (numeral half : Int) * -1 + ((numeral full : Int) - 1) * 2 := by
    rw [← after]
    rfl
  rw [turn] at duration
  constructor
  · rw [duration]
    ring
  · rw [duration, big]
    ring

/-- A piece letter counts one move at most. -/
theorem loadedMoves_le (r : Int) (ch : Char) (t : PieceType) : loadedMoves r ch t ≤ 1 := by
  cases t with
  | pawn =>
    rw [loadedMoves]
    split <;> split <;> decide
  | king => exact zero_le_one
  | rook | knight | bishop | queen | empty | other => exact le_rfl

/-- The pieces of a loaded game have moved once at most. -/
theorem loaded_moves {memory : Game} (reads : q.Reads (newGame memory) s x)
    (accepted : initGame (newGame memory) q.text = some (0, loaded)) (r c : Int) :
    (loaded.get r c).moves ≤ 1 := by
  have fits := reads.accepts_iff.mp ⟨loaded, accepted⟩
  rw [initGame_fits reads fits] at accepted
  obtain rfl : (clocked (q.front.loaded (newGame memory)) x q.clocks).2 = loaded :=
    congrArg Prod.snd (Option.some.inj accepted)
  have new : ∀ r c, ((newGame memory).get r c).moves ≤ 1 := by
    intro r c
    have same := (newGame_clocked memory).moves r c
    exact same.trans zero_le_one
  have board :
    ∀ r c, ((boardAfter q.front.placement (newGame memory) (0, 0)).get r c).moves ≤ 1 := by
    refine loadBoard_keeps (P := fun g => ∀ r c, (g.get r c).moves ≤ 1) ?_ ?_ _ 0 0 new
    · intro g r c ch t _ few x y
      rw [loadPiece, Game.get_set]
      split
      · exact loadedMoves_le r ch t
      · exact few x y
    · intro g r c few x y
      rw [Game.get_setType]
      split <;> exact few _ _
  have granted : ∀ r c, ((q.front.loaded (newGame memory)).get r c).moves ≤ 1 := by
    intro r c
    rw [Front.loaded, get_grant]
    split
    · exact zero_le_one
    · exact board r c
  have set : ∀ (g : Game) duration rest, (∀ r c, (g.get r c).moves ≤ 1) →
      ((setClock g x.1 x.2 duration rest).2.get r c).moves ≤ 1 := by
    intro g duration rest few
    rw [setClock_get]
    split <;> exact few _ _
  cases q.clocks with
  | none => exact set _ _ _ granted
  | some numbers => exact set _ _ _ granted

end Loaded

/-- Along a run from a loaded game no piece has moved more than once in a turn, but for the move it
was loaded with. -/
theorem Run.moves_le {start g : Game} {calls : List (Move × Int)} (sound : Sound start)
    (few : ∀ r c, (start.get r c).moves ≤ start.duration + 1)
    (run : Run start calls g) (r c : Int) :
    (g.get r c).moves ≤ g.duration + 1 := by
  induction run generalizing r c with
  | start => exact few r c
  | step run returns ih => exact (returns.made (run.sound sound)).moves_le (run.sound sound) ih r c

/-- Along a run every accepted call is a turn. -/
theorem Run.duration_eq {start g : Game} {calls : List (Move × Int)} (sound : Sound start)
    (run : Run start calls g) : g.duration = start.duration + accepted calls := by
  induction run with
  | start => exact (add_zero _).symm
  | step run returns ih =>
    rw [accepted_step]
    rcases (returns.made (run.sound sound)).count (run.sound sound) with
      ⟨refused, time, -⟩ | ⟨played, time, -⟩
    · rw [if_neg refused, time, ih, add_zero]
    · rw [if_pos played, time, ih]
      push_cast
      ring

/-- A board with two bare kings. -/
def bareBoard : List Char :=
  ['4', 'k', '3', '/', '8', '/', '8', '/', '8', '/', '8', '/', '8', '/', '8', '/', '4', 'K', '3']

/-- Two bare kings on the first move. -/
def bareScan (side : Side) : Scan :=
  ⟨⟨bareBoard, side, [], true⟩, ['-'], some (['0'], ['1'])⟩

unseal digitValue in
/-- The scanner reads two bare kings. -/
theorem bareScan_reads (side : Side) : (bareScan side).Reads (newGame blank) (7, 8) (-1, -1) := by
  have blank : ' ' ∉ bareBoard := by decide
  have walked : walk bareBoard (0, 0) = some (7, 8) := by decide +kernel
  refine ⟨⟨blank, walked, by decide, by decide, ?_⟩, rfl, ?_⟩
  · intro right mem
    cases mem
  · intro half full same
    cases same
    exact ⟨⟨List.cons_ne_nil _ _, List.forall_mem_singleton.mpr (by decide)⟩,
      ⟨List.cons_ne_nil _ _, List.forall_mem_singleton.mpr (by decide)⟩, by decide⟩

/-- The clocks of two bare kings fit. -/
theorem bareScan_fits (side : Side) : Fits (bareScan side).clocks := by
  intro half full same
  cases same
  decide

end Chessh
