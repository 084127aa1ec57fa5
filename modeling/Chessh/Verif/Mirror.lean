import Chessh.Verif.Memory

/-!
# The same for both colours

Seen from the other side of the board, with the players exchanged and the clocks one turn
later, a game is answered in the same way. Nothing in the engine favours a colour:
`Run.mirrored`.
-/

namespace Chessh

/-- A piece of the other player, one turn later. -/
def mirrorPiece (p : Piece) : Piece :=
  { p with
    player := if p.type = .empty then p.player else otherPlayer p.player
    lastMove := p.lastMove + 1 }

/-- A game seen from the other side of the board, one turn later. -/
def mirror (g : Game) : Game where
  board r c := mirrorPiece (g.board r.rev c)
  duration := g.duration + 1
  lastBigMove := g.lastBigMove + 1

/-- A move seen from the other side of the board. -/
def mirrorMove (m : Move) : Move := { m with rI := 7 - m.rI, rF := 7 - m.rF }

/-- The codes with the winners exchanged. -/
def mirrorCode (code : Int) : Int :=
  if code = whiteWin then blackWin else if code = blackWin then whiteWin else code

/-- What a mirrored square holds. -/
theorem mirror_get {g : Game} {r c : Int} (on : OnBoard r c) :
    (mirror g).get (7 - r) c = mirrorPiece (g.get r c) := by
  obtain ⟨i, j, rfl, rfl⟩ := on.exists_fin
  have row : (7 : Int) - (i.val : Int) = ((i.rev : Fin 8).val : Int) := by
    rw [Fin.val_rev]
    omega
  rw [row, Game.get_coe, Game.get_coe]
  show mirrorPiece (g.board i.rev.rev j) = mirrorPiece (g.board i j)
  rw [Fin.rev_rev]

/-- What a square of the mirrored game holds. -/
theorem mirror_square {g : Game} {r c : Int} (on : OnBoard r c) :
    (mirror g).get r c = mirrorPiece (g.get (7 - r) c) := by
  have there : OnBoard (turnRow true r) c := onBoard_turnRow.mpr on
  have same := mirror_get (g := g) there
  have back : 7 - turnRow true r = r := turnRow_turnRow true r
  rwa [back] at same

/-- A game looks like its mirror image. -/
theorem mirror_image {g : Game}
    (known : ∀ r c, (g.get r c).type ≠ .empty → (g.get r c).player.Known) :
    Image true 1 g (mirror g) where
  parity := rfl
  duration := rfl
  big := rfl
  square r c := by
    by_cases on : OnBoard r c
    · show Counterpart true 1 (g.get r c) ((mirror g).get (7 - r) c)
      rw [mirror_get on]
      refine ⟨rfl, known r c, fun full => ?_, fun _ => rfl, fun _ _ => rfl⟩
      exact if_neg full
    · have off : ¬ OnBoard (turnRow true r) c := fun there => on (onBoard_turnRow.mp there)
      rw [Game.get_off on, Game.get_off off]
      exact .empty rfl rfl

/-- The rows of unmoved pieces change sides with their owners. -/
theorem Sound.mirror {g : Game} (sound : Sound g)
    (known : ∀ r c, (g.get r c).type ≠ .empty → (g.get r c).player.Known) : Sound (mirror g) := by
  have square := fun r c on => @mirror_square g r c on
  refine ⟨fun r c => ?_, fun r c rook unmoved => ?_, fun r c pawn unmoved => ?_⟩
  · by_cases on : OnBoard r c
    · rw [square r c on]
      exact sound.nonneg (7 - r) c
    · rw [Game.get_off on]
      exact le_rfl
  · have on := onBoard_of_type_ne_empty (g := Chessh.mirror g) (by rw [rook]; decide)
    rw [square r c on] at rook unmoved ⊢
    have there : (g.get (7 - r) c).type = .rook := rook
    obtain ⟨column, row⟩ := sound.rook (7 - r) c there unmoved
    have owner : (mirrorPiece (g.get (7 - r) c)).player = otherPlayer (g.get (7 - r) c).player :=
      if_neg (by rw [there]; decide)
    rw [owner]
    refine ⟨column, ?_⟩
    rcases row with ⟨row, black⟩ | ⟨row, white⟩
    · exact Or.inr ⟨by omega, by rw [black]; rfl⟩
    · exact Or.inl ⟨by omega, by rw [white]; rfl⟩
  · have on := onBoard_of_type_ne_empty (g := Chessh.mirror g) (by rw [pawn]; decide)
    rw [square r c on] at pawn unmoved ⊢
    have there : (g.get (7 - r) c).type = .pawn := pawn
    obtain ⟨white, black⟩ := sound.pawn (7 - r) c there unmoved
    have full : (g.get (7 - r) c).type ≠ .empty := by
      rw [there]
      decide
    have owner : (mirrorPiece (g.get (7 - r) c)).player = otherPlayer (g.get (7 - r) c).player :=
      if_neg full
    rw [owner]
    rcases known (7 - r) c full with own | own
    · have row := white own
      rw [own]
      exact ⟨fun other => Player.noConfusion other, fun _ => by omega⟩
    · have row := black own
      rw [own]
      exact ⟨fun _ => by omega, fun other => Player.noConfusion other⟩

/-- A piece that has not moved stands where it stood before the call. -/
theorem Made.still {g : Game} {m : Move} {code : Int} {after : Game} (sound : Sound g)
    (made : Made g m code after) {r c : Int} (full : (after.get r c).type ≠ .empty)
    (unmoved : (after.get r c).moves = 0) : after.get r c = g.get r c := by
  rcases made.effect sound with ⟨-, scribbled⟩ | ⟨-, v, landing, -, -, -, landed, -, scribbled⟩
  · exact scribbled.unmoved full unmoved
  · have before := scribbled.unmoved full unmoved
    rw [before] at full unmoved ⊢
    exact landed.unmoved sound full unmoved

/-- `make_move` treats the colours alike. In every state of a run, the mirrored call on the
mirrored game returns the mirrored code. When the move is played and the game goes on or is
drawn, the two games are mirror images again, on both clocks and on every occupied square. -/
theorem Run.mirrored {memory g : Game} {calls : List (Move × Int)}
    (run : Run (newGame memory) calls g) (m : Move) :
    ∃ code after after', Returns g m code after ∧
      Returns (mirror g) (mirrorMove m) (mirrorCode code) after' ∧
      (0 ≤ code ∨ code = forcedDraw →
        after'.duration = (mirror after).duration ∧
        after'.lastBigMove = (mirror after).lastBigMove ∧
        ∀ r c, (after'.get r c).type = ((mirror after).get r c).type ∧
          ((after'.get r c).type ≠ .empty → after'.get r c = (mirror after).get r c)) := by
  obtain ⟨-, same, lone⟩ := run.image run rfl
  have known := fun r c => (same.square r c).known
  have sound := run.sound (newGame_sound memory)
  have image := mirror_image known
  have sound' := sound.mirror known
  obtain ⟨code, after, after', asked, asked', paired⟩ := image.called sound sound' lone m
  have returns : Returns g m code after := .of_asked asked
  have returns' : Returns (mirror g) (mirrorMove m) (mirrorCode code) after' := .of_asked asked'
  refine ⟨code, after, after', returns, returns', fun played => ?_⟩
  have alike := paired.image (Or.inr played)
  refine ⟨alike.duration, alike.big, fun r c => ?_⟩
  by_cases on : OnBoard r c
  swap
  · rw [Game.get_off on, Game.get_off on]
    exact ⟨rfl, fun _ => rfl⟩
  have square := alike.square (turnRow true r) c
  rw [turnRow_turnRow] at square
  change Counterpart true 1 (after.get (7 - r) c) (after'.get r c) at square
  rw [mirror_square on]
  refine ⟨square.type, fun full => ?_⟩
  have occupied : (after.get (7 - r) c).type ≠ .empty := by
    rw [← square.type]
    exact full
  -- a piece that has not moved kept the time it had
  have last : (after'.get r c).lastMove = (after.get (7 - r) c).lastMove + 1 := by
    by_cases moved : (after.get (7 - r) c).moves = 0
    · have kept := (returns.made sound).still sound occupied moved
      have kept' := (returns'.made sound').still sound' full ((square.moves occupied).trans moved)
      rw [kept', kept, mirror_square on]
      rfl
    · exact square.last occupied moved
  have owner : (after'.get r c).player = otherPlayer (after.get (7 - r) c).player :=
    square.owner occupied
  have shape : after'.get r c = ⟨(after'.get r c).type, (after'.get r c).player,
    (after'.get r c).moves, (after'.get r c).lastMove⟩ := rfl
  rw [shape, square.type, square.moves occupied, last, owner]
  unfold mirrorPiece
  rw [if_neg occupied]

/-- The first moves of White mirror the first moves of Black. -/
theorem mirrored_opening :
    ∃ code after after', Returns (newGame blank) ⟨6, 4, 4, 4, .empty⟩ code after ∧
      Returns (mirror (newGame blank)) ⟨1, 4, 3, 4, .empty⟩ (mirrorCode code) after' := by
  have run : Run (newGame blank) [] (newGame blank) := .start
  obtain ⟨code, after, after', returns, returns', -⟩ := Run.mirrored run ⟨6, 4, 4, 4, .empty⟩
  exact ⟨code, after, after', returns, returns'⟩

end Chessh
