import Chessh.Verif.Counters
import Chessh.Verif.Refinement

/-!
# Runs from a new game

A new game tracks the starting position, so every run of accepted calls tracks the position
its moves lead to. From this: `make_move` accepts exactly the legal moves, and no king is
ever left to be captured.
-/

namespace Chessh

open Rules (Side Kind Man Square Wing Ply Position Reaches Attacked InCheck Inside)

/-! ## The start -/

/-- In a new game nothing has moved. -/
theorem newGame_moves (memory : Game) (r c : Int) : ((newGame memory).get r c).moves = 0 := by
  by_cases on : OnBoard r c
  · obtain ⟨i, j, rfl, rfl⟩ := on.exists_fin
    rw [newGame_get]
  · rw [Game.get_off on, offBoard]

/-- A new game holds the starting position. -/
theorem newGame_man (memory : Game) (r c : Int) :
    ((newGame memory).get r c).man = Rules.initialBoard (r, c) := by
  by_cases on : OnBoard r c
  · obtain ⟨i, j, rfl, rfl⟩ := on.exists_fin
    have table : ∀ i j : Fin 8, (newType i j = .empty ∧ Rules.initialBoard (i, j) = none) ∨
        ((i.val < 2 ∨ 6 ≤ i.val) ∧
          (⟨newType i j, if i.val < 2 then .black else .white, 0, 0⟩ : Piece).man =
            Rules.initialBoard (i, j)) := by decide
    rw [newGame_get]
    rcases table i j with ⟨empty, free⟩ | ⟨rows, man⟩
    · rw [free]
      exact man_empty empty
    · rw [← man]
      rcases rows with black | white
      · simp [Piece.man, black]
      · simp [Piece.man, white, show ¬ i.val < 2 by omega]
  · rw [Game.get_off on, man_empty rfl]
    cases there : Rules.initialBoard (r, c) with
    | none => rfl
    | some man => exact absurd (Rules.initial_wellFormed.inside _ _ there) on

/-- A new game tracks the starting position. -/
theorem newGame_tracks (memory : Game) : Tracks (newGame memory) Rules.initial := by
  have moves := newGame_moves memory
  have man := newGame_man memory
  have unmoved : ∀ {side kind r c}, Unmoved (newGame memory) side kind r c ↔
      Rules.initialBoard (r, c) = some ⟨side, kind⟩ := by
    intro side kind r c
    rw [Unmoved, man, moves]
    exact ⟨And.left, fun h => ⟨h, rfl⟩⟩
  refine ⟨newGame_sound memory, ?_, Rules.initial_wellFormed, ?_, rfl, ?_, ?_, ?_, ?_, ?_⟩
  · intro r c nobody
    by_cases on : OnBoard r c
    · obtain ⟨i, j, rfl, rfl⟩ := on.exists_fin
      have table : ∀ i j : Fin 8, Rules.initialBoard (i, j) = none → newType i j = .empty := by
        decide
      rw [man] at nobody
      rw [newGame_get]
      exact table i j nobody
    · rw [Game.get_off on, offBoard]
  · funext s
    obtain ⟨r, c⟩ := s
    exact (man r c).symm
  · intro side wing
    rw [unmoved, unmoved]
    apply iff_of_true trivial
    cases side <;> cases wing <;> decide
  · intro side r c x y king _
    have there := unmoved.mp king
    have home := Rules.initial_wellFormed.lone side _ (side.homeRow, 4) there
      (by cases side <;> decide)
    exact Prod.mk.inj home
  · intro side r c pawn
    rw [man] at pawn
    obtain ⟨-, ⟨-, found⟩ | ⟨row, -⟩⟩ := Rules.initialBoard_some pawn
    · exact absurd rfl (Rules.officer_some found).2.1
    · exact iff_of_true (moves r c) row
  · intro r c _ once
    rw [moves] at once
    cases once
  · intro c
    apply iff_of_false (by simp [Rules.initial])
    rintro ⟨-, once, -⟩
    rw [moves] at once
    cases once

/-! ## Runs of accepted calls -/

/-- The moves of a sequence of calls, as the players name them. -/
def plies (calls : List (Move × Int)) : List Ply := calls.map fun call => call.1.ply

/-- The moves of one sequence of calls after another. -/
theorem plies_append (first second : List (Move × Int)) :
    plies (first ++ second) = plies first ++ plies second := List.map_append

/-- Along a run of accepted calls a game that starts on a position follows the position its
moves lead to, and tracks it as long as no call reports the end of the game. -/
theorem Tracks.follows {start g : Game} {pos : Position} {calls : List (Move × Int)}
    (tracks : Tracks start pos) (run : Run start calls g)
    (accepted : ∀ call ∈ calls, Accepted call.2) :
    Follows g (pos.plays (plies calls)) ∧
      ((∀ call ∈ calls, 0 ≤ call.2) → Tracks g (pos.plays (plies calls))) := by
  induction run with
  | start => exact ⟨Or.inl tracks, fun _ => tracks⟩
  | @step calls g m code after run returns ih =>
    obtain ⟨follows, -⟩ := ih fun call mem => accepted call (List.mem_append_left _ mem)
    have played := accepted (m, code) (List.mem_append_right _ List.mem_cons_self)
    have made := returns.made follows.sound
    have moves : pos.plays (plies (calls ++ [(m, code)])) =
        (pos.plays (plies calls)).play m.ply := by
      rw [plies_append, Position.plays_append]
      rfl
    rw [moves]
    rcases follows.made made with ⟨refused, -⟩ | ⟨tracks, -, -⟩
    · exact absurd played refused
    rcases tracks.made made with ⟨refused, -⟩ | ⟨-, -, next, tracked, -⟩
    · exact absurd played refused
    · exact ⟨next, fun nonneg =>
        tracked (nonneg (m, code) (List.mem_append_right _ List.mem_cons_self))⟩

/-- A run of a new game follows the position its moves lead to. -/
theorem Run.follows {memory g : Game} {calls : List (Move × Int)}
    (run : Run (newGame memory) calls g) (accepted : ∀ call ∈ calls, Accepted call.2) :
    Follows g (Rules.initial.plays (plies calls)) ∧
      ((∀ call ∈ calls, 0 ≤ call.2) → Tracks g (Rules.initial.plays (plies calls))) :=
  (newGame_tracks memory).follows run accepted

/-- The engine implements the rules of chess: along every run of accepted calls the next
call returns and accepts its move exactly when the move is legal in the position reached,
and until a call reports the end of the game board and side to move are those of that
position. -/
theorem Run.plays_chess {memory g : Game} {calls : List (Move × Int)}
    (run : Run (newGame memory) calls g) (accepted : ∀ call ∈ calls, Accepted call.2) :
    (∀ m : Move, ∃ code after, Returns g m code after ∧
      (Accepted code ↔ (Rules.initial.plays (plies calls)).Legal m.ply)) ∧
    ((∀ call ∈ calls, 0 ≤ call.2) →
      g.placement = (Rules.initial.plays (plies calls)).board ∧
      getPlayer g = playerOf (Rules.initial.plays (plies calls)).turn) := by
  obtain ⟨follows, tracks⟩ := run.follows accepted
  refine ⟨fun m => ?_, fun nonneg => ⟨(tracks nonneg).board.symm, (tracks nonneg).turn⟩⟩
  obtain ⟨code, after, returns, made⟩ := follows.sound.returns m
  refine ⟨code, after, returns, ?_⟩
  rcases follows.made made with ⟨refused, illegal⟩ | ⟨-, played, legal⟩
  · exact iff_of_false refused illegal
  · exact iff_of_true played legal

/-- One move of each player is accepted, and White is to move. -/
theorem first_moves_codes :
    ((replay (newGame blank) [⟨6, 4, 4, 4, .empty⟩, ⟨1, 4, 3, 4, .empty⟩]).1.map Prod.snd = [0, 0] ∧
      ∀ call ∈ (replay (newGame blank) [⟨6, 4, 4, 4, .empty⟩, ⟨1, 4, 3, 4, .empty⟩]).1,
        Accepted call.2 ∧ 0 ≤ call.2) ∧
      getPlayer
        (replay (newGame blank) [⟨6, 4, 4, 4, .empty⟩, ⟨1, 4, 3, 4, .empty⟩]).2 = .white := by
  decide +kernel

/-- The refinement, after one move of each player. -/
theorem plays_chess_opening :
    let calls := (replay (newGame blank) [⟨6, 4, 4, 4, .empty⟩, ⟨1, 4, 3, 4, .empty⟩]).1
    let g := (replay (newGame blank) [⟨6, 4, 4, 4, .empty⟩, ⟨1, 4, 3, 4, .empty⟩]).2
    calls.map Prod.snd = [0, 0] ∧
      g.placement = (Rules.initial.plays (plies calls)).board := by
  obtain ⟨⟨codes, nonneg⟩, -⟩ := first_moves_codes
  have chess := Run.plays_chess (Run.start.replayed (newGame_sound blank)
    [⟨6, 4, 4, 4, .empty⟩, ⟨1, 4, 3, 4, .empty⟩]) fun call mem => (nonneg call mem).1
  exact ⟨codes, (chess.2 fun call mem => (nonneg call mem).2).1⟩

/-! ## Kings -/

/-- Whenever `make_move_no_checkmate` asks whether a move leaves the player in check, the
search for the king succeeds. -/
def KingFound (g : Game) : Prop :=
  ∀ m depth v, isIllegal (depth + 1) g m (getPlayer g) = some v → 0 ≤ v.code →
    findKing (v.apply m) (getPlayer g) ≠ none

/-- The board holds one king of the player. -/
def OneKing (g : Game) (player : Player) : Prop :=
  ∃ r c, ∀ x y, ((g.get x y).type = .king ∧ (g.get x y).player = player) ↔ (x = r ∧ y = c)

section Kings

variable {g : Game} {pos : Position}

/-- A game that tracks a position holds one king of each player. -/
theorem Tracks.oneKing (tracks : Tracks g pos) (side : Side) : OneKing g (playerOf side) := by
  obtain ⟨s, king⟩ := tracks.king side
  refine ⟨s.1, s.2, fun x y => ?_⟩
  have here := king (x, y)
  rw [show g.placement (x, y) = (g.get x y).man from rfl, man_eq_some] at here
  exact here.trans Prod.ext_iff

/-- Both kings are found. -/
theorem Tracks.findKing (tracks : Tracks g pos) (side : Side) :
    findKing g (playerOf side) ≠ none := by
  obtain ⟨s, king⟩ := tracks.king side
  rw [findKing_eq king]
  exact Option.some_ne_none s

/-- The king is found on every board a trial move makes. -/
theorem Tracks.kingFound (tracks : Tracks g pos) : KingFound g := by
  intro m depth v asked ok
  obtain ⟨v', asked', judged⟩ := isIllegal_judged tracks.sound.home m (getPlayer_known g)
  obtain rfl : v = v' := Option.some.inj (asked.symm.trans (asked' depth))
  obtain ⟨pseudo, captured, rook⟩ := tracks.pseudo judged ok
  have landed := judged.landed tracks.sound.home ok
  rw [captured, rook] at landed
  obtain ⟨s, king⟩ := pseudo.kings tracks.wf pos.turn
  rw [← tracks.placement pseudo landed] at king
  rw [tracks.turn, findKing_eq king]
  exact Option.some_ne_none s

/-- An accepted move does not go to the square of a king. -/
theorem Tracks.spares_king (tracks : Tracks g pos) {m : Move} (legal : pos.Legal m.ply) :
    (g.get m.rF m.cF).type ≠ .king := by
  intro king
  obtain ⟨side, kind, man⟩ := tracks.known.man (g := g) (r := m.rF) (c := m.cF)
    (by rw [king]; decide)
  obtain rfl : kind = .king :=
    ((typeOf_inj (a := .king)).mp (king.symm.trans (man_eq_some.mp man).1)).symm
  have there : pos.board m.ply.target = some ⟨side, .king⟩ := (tracks.get _ _).trans man
  rcases Side.eq_or_other pos.turn side with rfl | rfl
  · exact legal.2.2.1.free ⟨_, there⟩
  · exact legal.2.2.1.spares_king tracks.wf there

end Kings

/-- Along every run of accepted calls the board holds one king of each player, and the king
of the player who is not to move is attacked neither in the sense of the rules nor in that
of the engine. The next accepted move captures no king, and none of the searches for a king
that the next call makes comes back without one. -/
theorem Run.kings_safe {memory g : Game} {calls : List (Move × Int)}
    (run : Run (newGame memory) calls g) (accepted : ∀ call ∈ calls, Accepted call.2) :
    OneKing g .white ∧ OneKing g .black ∧
    (∃ side, getPlayer g = playerOf side ∧ ¬ InCheck g.placement side.other) ∧
    (∀ depth, isInCheck (depth + 1) g (otherPlayer (getPlayer g)) = some (false, g)) ∧
    (∀ m code after, Returns g m code after → Accepted code → (g.get m.rF m.cF).type ≠ .king) ∧
    KingFound g ∧
    (∀ m depth landing, makeMoveNoCheckmate (depth + 1) g m = some (0, landing) →
      KingFound landing ∧ findKing landing (otherPlayer (getPlayer g)) ≠ none) := by
  obtain ⟨follows, -⟩ := run.follows accepted
  obtain ⟨pos, tracks⟩ : ∃ pos, Tracks g pos := by
    rcases follows with tracks | ⟨-, s, -, tracks⟩
    · exact ⟨_, tracks⟩
    · exact ⟨_, tracks⟩
  have other : otherPlayer (getPlayer g) = playerOf pos.turn.other := by
    rw [tracks.turn, otherPlayer_playerOf]
  have safe : ¬ Checked g (otherPlayer (getPlayer g)) := by
    rw [other, tracks.checked]
    exact tracks.wf.safe
  refine ⟨tracks.oneKing .white, tracks.oneKing .black, ⟨pos.turn, tracks.turn, ?_⟩, ?_, ?_,
    tracks.kingFound, ?_⟩
  · rw [← tracks.board]
    exact tracks.wf.safe
  · intro depth
    rw [isInCheck_eq tracks.sound.cornered, checkProbe_safe safe]
  · intro m code after returns played
    rcases tracks.made (returns.made tracks.sound) with ⟨refused, -⟩ | ⟨-, legal, -⟩
    · exact absurd played refused
    · exact tracks.spares_king legal
  · intro m depth landing asked
    obtain ⟨code, after, asked', tried⟩ := makeMoveNoCheckmate_tried tracks.sound m
    have same := asked.symm.trans (asked' depth)
    simp only [Option.some.injEq, Prod.mk.injEq] at same
    obtain ⟨rfl, rfl⟩ := same
    rcases tracks.tried tried with ⟨-, -, next⟩ | ⟨refused, -⟩
    · rw [other]
      exact ⟨next.kingFound, next.findKing _⟩
    · exact absurd rfl refused

/-- The kings after one move of each player. -/
theorem kings_safe_opening :
    let g := (replay (newGame blank) [⟨6, 4, 4, 4, .empty⟩, ⟨1, 4, 3, 4, .empty⟩]).2
    OneKing g .white ∧ OneKing g .black ∧ getPlayer g = .white := by
  obtain ⟨⟨-, nonneg⟩, white⟩ := first_moves_codes
  have kings := Run.kings_safe (Run.start.replayed (newGame_sound blank)
    [⟨6, 4, 4, 4, .empty⟩, ⟨1, 4, 3, 4, .empty⟩]) fun call mem => (nonneg call mem).1
  exact ⟨kings.1, kings.2.1, white⟩

end Chessh
