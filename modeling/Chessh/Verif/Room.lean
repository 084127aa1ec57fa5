import Chessh.Client.Fen
import Chessh.Verif.Length

/-!
# Counters and the range of `int`

The counters of a game are `int`s in `chess.h`, and a call adds to them: a turn to `duration` and a
move to what moves, then as much again on the copies on which it looks for a reply, and it takes the
difference of `duration` and `last_big_move`. `Room` says that these sums fit for so many calls, so
that they are those of the model, and `Room.run` that every call leaves room for the calls behind
it.
-/

namespace Chessh

/-- The counters leave room in an `int` for so many calls. -/
structure Room (calls : Nat) (g : Game) : Prop where
  /-- Every call adds a turn, and the search for a reply one more. -/
  duration : g.duration + calls + 1 ≤ intMax
  /-- The clock counts the turns since the last capture. -/
  clock : g.duration - g.lastBigMove + calls ≤ intMax
  /-- No piece moves more than once in a turn. -/
  moves : ∀ r c, (g.get r c).moves + calls ≤ intMax

section Room

variable {g after : Game} {m : Move} {code : Int} {n : Nat}

/-- So many calls fit an `int`. -/
theorem Room.calls (room : Room n g) : (n : Int) ≤ intMax := by
  have off := room.moves (-1) (-1)
  rw [Game.get_off (by decide)] at off
  exact (zero_add (n : Int)).symm.trans_le off

/-- There is room for fewer calls. -/
theorem Room.fewer {k : Nat} (room : Room n g) (fewer : k ≤ n) : Room k g := by
  obtain ⟨duration, clock, moves⟩ := room
  refine ⟨by omega, by omega, fun r c => ?_⟩
  have := moves r c
  omega

/-- A call takes the room of one. -/
theorem Room.step (room : Room (n + 1) g) (sound : Sound g) (made : Made g m code after) :
    Room n after := by
  have calls := room.calls
  have duration := room.duration
  have clock := room.clock
  have few : ∀ r c, (g.get r c).moves ≤ g.duration + (intMax - (n + 1 : Nat) - g.duration) := by
    intro r c
    have := room.moves r c
    omega
  have moves := made.moves_le sound few
  push_cast at calls duration clock few moves
  rcases made.count sound with ⟨-, time, -, big⟩ | ⟨-, time, -, ⟨-, big⟩ | ⟨-, big⟩⟩ <;>
  · refine ⟨by omega, by omega, fun r c => ?_⟩
    have := moves r c
    omega

/-- So do the calls of a run. -/
theorem Room.run {start : Game} {calls : List (Move × Int)} (room : Room (n + calls.length) start)
    (sound : Sound start) (run : Run start calls g) : Room n g := by
  induction run generalizing n with
  | start => exact room
  | @step calls g m code after run returns ih =>
    have before : Room (n + 1) g := by
      apply ih
      rw [List.length_append, List.length_singleton] at room
      rwa [add_assoc, Nat.add_comm 1]
    exact before.step (run.sound sound) (returns.made (run.sound sound))

end Room

/-- As long as the game goes on, each of so many calls finds room for its sums. -/
def InRange (start : Game) (n : Nat) : Prop :=
  ∀ calls g, Run start calls g → (∀ call ∈ calls, 0 ≤ call.2) → calls.length < n → Room 1 g

/-- A game with room for so many calls stays in range for them. -/
theorem Room.inRange {g : Game} {n : Nat} (room : Room n g) (sound : Sound g) : InRange g n := by
  intro calls after run _ few
  refine Room.run (room.fewer ?_) sound run
  omega

/-- From a new game no call leaves the range: the game is over before. -/
theorem newGame_inRange (memory : Game) (n : Nat) : InRange (newGame memory) n := by
  intro calls g run going _
  have clocked := run.clocked fun call mem => not_ended_of_nonneg (going call mem)
  have bound := clocked.bound
  have running := clocked.running
  have wide : 5000 ≤ intMax := by decide
  refine ⟨by push_cast; omega, by push_cast; omega, fun r c => ?_⟩
  have := clocked.moves r c
  push_cast
  omega

end Chessh
