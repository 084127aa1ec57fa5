import Chessh.Client.Api
import Chessh.Verif.Alike

/-!
# What new games leave unset

`new_game` sets neither the time of the last move of any piece nor the owner of the empty
squares. Nothing the engine reports depends on what the memory held: `Run.memory_independent`.
-/

namespace Chessh

/-- New games look alike, whatever the memory held. -/
theorem newGame_image (memory memory' : Game) :
    Image false 0 (newGame memory) (newGame memory') where
  parity := rfl
  duration := rfl
  big := rfl
  square r c := by
    have rows : ∀ i j : Fin 8, newType i j ≠ .empty → i.val < 2 ∨ 6 ≤ i.val := by decide
    show Counterpart false 0 ((newGame memory).get r c) ((newGame memory').get r c)
    by_cases on : OnBoard r c
    · obtain ⟨i, j, rfl, rfl⟩ := on.exists_fin
      rw [newGame_get, newGame_get]
      refine ⟨rfl, fun full => ?_, fun full => ?_, fun _ => rfl, fun _ moved => absurd rfl moved⟩
      · rcases rows i j full with row | row
        · exact Or.inr (if_pos row)
        · exact Or.inl ((if_neg (by omega)).trans (if_pos row))
      · show (if i.val < 2 then Player.black else if 6 ≤ i.val then .white else _) =
          if i.val < 2 then Player.black else if 6 ≤ i.val then .white else _
        rcases rows i j full with row | row
        · rw [if_pos row, if_pos row]
        · have below : ¬ i.val < 2 := by omega
          rw [if_neg below, if_neg below, if_pos row, if_pos row]
    · rw [Game.get_off on, Game.get_off on]
      exact .empty rfl rfl

section Memory

variable {memory memory' g h : Game} {calls calls' : List (Move × Int)}

/-- Runs of the same moves return the same codes and lead to games that look alike. -/
theorem Run.image (run : Run (newGame memory) calls g) (run' : Run (newGame memory') calls' h)
    (moves : calls.map Prod.fst = calls'.map Prod.fst) :
    calls = calls' ∧ Image false 0 g h ∧ Lone g := by
  induction run generalizing calls' h with
  | start =>
    cases run' with
    | start => exact ⟨rfl, newGame_image memory memory', newGame_lone memory⟩
    | step => simp at moves
  | @step calls g m code after run returns ih =>
    cases run' with
    | start => simp at moves
    | @step calls' h m' code' after' run' returns' =>
      rw [List.map_append, List.map_append] at moves
      obtain ⟨earlier, last⟩ := List.append_inj' moves rfl
      obtain rfl : m = m' := List.head_eq_of_cons_eq last
      obtain ⟨same, image, lone⟩ := ih run' earlier
      have sound := run.sound (newGame_sound memory)
      have sound' := run'.sound (newGame_sound memory')
      obtain ⟨result, final, final', asked, asked', paired⟩ := image.called sound sound' lone m
      obtain ⟨rfl, rfl⟩ := returns.unique (.of_asked asked)
      obtain ⟨rfl, rfl⟩ := returns'.unique (.of_asked asked')
      rw [same]
      exact ⟨rfl, paired.image (Or.inl rfl), paired.lone⟩

/-- Games that look alike from the same side have the same valid moves. -/
theorem Image.collected (image : Image false 0 g h) (sound : Sound g) (sound' : Sound h)
    (lone : Lone g) (buffSize : Nat) (rest found : List Move) :
    ∃ list, (∀ depth, collectMoves (depth + 1) g buffSize rest found = some list) ∧
      ∀ depth, collectMoves (depth + 1) h buffSize rest found = some list := by
  induction rest generalizing found with
  | nil => exact ⟨found, fun _ => rfl, fun _ => rfl⟩
  | cons m rest ih =>
    obtain ⟨code, after, after', asked, asked', -⟩ := image.called sound sound' lone m
    have valid : ∀ depth, moveIsValid (depth + 1) g m = some (decide (code ≠ illegalMove)) := by
      intro depth
      rw [moveIsValid, asked]
      rfl
    have valid' : ∀ depth, moveIsValid (depth + 1) h m = some (decide (code ≠ illegalMove)) := by
      intro depth
      rw [moveIsValid, show makeMove (depth + 1) h m = _ from asked' depth]
      rfl
    simp only [collectMoves, valid, valid', Option.bind_some]
    by_cases accepted : code = illegalMove
    · simpa only [accepted, ne_eq, not_true_eq_false, decide_false, Bool.false_eq_true, ↓reduceIte]
        using ih found
    simp only [accepted, ne_eq, not_false_eq_true, decide_true, ↓reduceIte]
    by_cases full : buffSize ≤ found.length * 2
    · simp only [full, ↓reduceIte]
      exact ⟨found, fun _ => rfl, fun _ => rfl⟩
    · simpa only [full, ↓reduceIte] using ih (found ++ [m])

/-- Two runs of the same calls, over whatever memory, return the same codes and agree on both
clocks, on the type of every square, and on the owner and the number of moves of every piece.
Every further call returns the same code in both, and the valid moves are the same. -/
theorem Run.memory_independent (run : Run (newGame memory) calls g)
    (run' : Run (newGame memory') calls' h) (moves : calls.map Prod.fst = calls'.map Prod.fst) :
    calls = calls' ∧ g.duration = h.duration ∧ g.lastBigMove = h.lastBigMove ∧
      (∀ r c, (g.get r c).type = (h.get r c).type) ∧
      (∀ r c, (g.get r c).type ≠ .empty →
        (g.get r c).player = (h.get r c).player ∧ (g.get r c).moves = (h.get r c).moves) ∧
      (∀ m, ∃ code after after', Returns g m code after ∧ Returns h m code after') ∧
      ∀ promotion buffSize, ∃ list,
        (∀ depth, countValidMoves (depth + 1) g promotion buffSize = some list) ∧
        ∀ depth, countValidMoves (depth + 1) h promotion buffSize = some list := by
  obtain ⟨same, image, lone⟩ := run.image run' moves
  have sound := run.sound (newGame_sound memory)
  have sound' := run'.sound (newGame_sound memory')
  have time := image.duration
  have big := image.big
  refine ⟨same, by omega, by omega, fun r c => (image.type r c).symm,
    fun r c full => ?_, fun m => ?_,
    fun promotion buffSize => image.collected sound sound' lone buffSize _ []⟩
  · exact ⟨((image.square r c).owner full).symm, ((image.square r c).moves full).symm⟩
  · obtain ⟨code, after, after', asked, asked', -⟩ := image.called sound sound' lone m
    exact ⟨code, after, after', .of_asked asked, .of_asked asked'⟩

/-- Memory that holds nothing but Black's empty squares, of which each has just moved. -/
def stale : Game := ⟨fun _ _ => ⟨.empty, .black, 0, 7⟩, 0, 0⟩

/-- Executed calls are calls with the given moves. -/
theorem replay_moves (g : Game) (moves : List Move) : (replay g moves).1.map Prod.fst = moves := by
  induction moves generalizing g with
  | nil => rfl
  | cons m rest ih => exact congrArg (m :: ·) (ih _)

/-- A pawn takes a pawn in passing, over two different memories. -/
theorem memory_independent_passing :
    ∃ moves, (replay (newGame blank) moves).1 = (replay (newGame stale) moves).1 ∧
      ∀ r c, ((replay (newGame blank) moves).2.get r c).type =
        ((replay (newGame stale) moves).2.get r c).type := by
  have run := Run.start.replayed (newGame_sound blank)
    [⟨6, 4, 4, 4, .empty⟩, ⟨1, 0, 2, 0, .empty⟩, ⟨4, 4, 3, 4, .empty⟩, ⟨1, 3, 3, 3, .empty⟩,
      ⟨3, 4, 2, 3, .empty⟩]
  have run' := Run.start.replayed (newGame_sound stale)
    [⟨6, 4, 4, 4, .empty⟩, ⟨1, 0, 2, 0, .empty⟩, ⟨4, 4, 3, 4, .empty⟩, ⟨1, 3, 3, 3, .empty⟩,
      ⟨3, 4, 2, 3, .empty⟩]
  rw [List.nil_append] at run run'
  have agree := run.memory_independent run' (by rw [replay_moves, replay_moves])
  exact ⟨_, agree.1, agree.2.2.2.1⟩

end Memory

end Chessh
