import Chessh.Client.Fen
import Chessh.Verif.Effect

/-!
# Loaded positions are sound

The counters `init_game` makes up respect what the counters of a game mean: only corner
rooks and pawns on their start row can be unmoved. Runs may therefore start from a loaded
position as well as from a new game.
-/

namespace Chessh

/-- A write of a piece keeps the board sound when the piece could stand there. -/
theorem Sound.set {g : Game} (sound : Sound g) {r c : Int} {p : Piece} (nonneg : 0 ≤ p.moves)
    (rook : p.type = .rook → p.moves = 0 →
      (c = 0 ∨ c = 7) ∧ ((r = 0 ∧ p.player = .black) ∨ (r = 7 ∧ p.player = .white)))
    (pawn : p.type = .pawn → p.moves = 0 →
      (p.player = .white → r = 6) ∧ (p.player = .black → r = 1)) : Sound (g.set r c p) := by
  refine ⟨fun x y => ?_, fun x y => ?_, fun x y => ?_⟩ <;> rw [Game.get_set] <;> split
  · exact nonneg
  · exact sound.nonneg x y
  · rename_i here
    obtain ⟨-, rfl, rfl⟩ := here
    exact rook
  · exact sound.rook x y
  · rename_i here
    obtain ⟨-, rfl, rfl⟩ := here
    exact pawn
  · exact sound.pawn x y

/-- The clocks are no part of soundness. -/
theorem Sound.clocks {g : Game} (sound : Sound g) (duration big : Int) :
    Sound { g with duration := duration, lastBigMove := big } :=
  ⟨sound.nonneg, sound.rook, sound.pawn⟩

/-- What clearing a square preserves, clearing a run preserves. -/
theorem clearRun_keeps {P : Game → Prop} (clear : ∀ g r c, P g → P (g.setType r c .empty))
    {r : Int} :
    ∀ (run : Nat) {g : Game} (c : Int), P g → P (clearRun run g r c).1 := by
  intro run
  induction run with
  | zero => exact fun _ holds => holds
  | succ run ih =>
    intro g c holds
    rw [clearRun]
    split
    · exact holds
    · exact ih _ (clear g r c holds)

/-- What a piece letter and clearing a square preserve, the board field preserves. -/
theorem loadBoard_keeps {P : Game → Prop}
    (piece : ∀ g r c ch t, letterType ch.toLower = some t → P g → P (loadPiece g r c ch t))
    (clear : ∀ g r c, P g → P (g.setType r c .empty)) :
    ∀ (state : List Char) {g : Game} (r c : Int), P g → P (loadBoard state g r c).1 := by
  intro state
  induction state with
  | nil =>
    intro g r c holds
    rw [loadBoard]
    exact holds
  | cons ch rest ih =>
    intro g r c holds
    rw [loadBoard]
    split
    · exact holds
    split
    · split
      · exact holds
      · exact ih _ _ holds
    split
    · rename_i letter
      exact ih _ _ (piece g r c ch _ letter holds)
    · split
      · have cleared := clearRun_keeps (r := r) clear (digitValue ch) c holds
        split
        · rename_i stopped
          rw [stopped] at cleared
          exact cleared
        · rename_i stopped
          rw [stopped] at cleared
          exact ih _ _ cleared
      · exact holds

/-- A loaded piece keeps the board sound. -/
theorem loadPiece_sound {g : Game} (sound : Sound g) (r c : Int) {ch : Char} {t : PieceType}
    (letter : letterType ch.toLower = some t) : Sound (loadPiece g r c ch t) := by
  unfold loadPiece
  cases t with
  | king =>
    exact sound.set le_rfl (fun h => PieceType.noConfusion h) fun h => PieceType.noConfusion h
  | pawn =>
    refine sound.set ?_ (fun h => PieceType.noConfusion h) fun _ unmoved => ?_ <;>
      simp only [loadedMoves] at *
    · split <;> split <;> decide
    · split at unmoved <;> split at unmoved <;> simp_all
  | rook | knight | bishop | queen | empty | other =>
    exact sound.set zero_le_one (fun _ h => absurd h Int.one_ne_zero)
      fun _ h => absurd h Int.one_ne_zero

/-- Loading a board keeps it sound. -/
theorem loadBoard_sound (state : List Char) {g : Game} (r c : Int) (sound : Sound g) :
    Sound (loadBoard state g r c).1 := by
  refine loadBoard_keeps (fun g r c ch t letter sound => ?_) (fun g r c sound => ?_) state r c sound
  · exact loadPiece_sound sound r c letter
  · exact sound.setType (by simp)

/-- Granting rights keeps the board sound. -/
theorem loadRights_sound : ∀ (state : List Char) {g : Game}, Sound g →
    Sound (loadRights state g).1 := by
  intro state
  induction state with
  | nil => exact fun sound => sound
  | cons ch rest ih =>
    intro g sound
    have castle : ∀ r c p, (c = 0 ∨ c = 7) →
      ((r = 0 ∧ p = Player.black) ∨ (r = 7 ∧ p = Player.white)) →
        Sound ((rookCastle g r c p).elim (g, none) (loadRights rest)).1 := by
      intro r c p column row
      unfold rookCastle
      split
      · exact sound
      · rename_i rook
        push Not at rook
        refine ih (sound.set le_rfl (fun _ _ => ⟨column, ?_⟩) fun pawn => ?_)
        · rw [rook.2]
          exact row
        · exact absurd (rook.1.symm.trans pawn) (by decide)
    unfold loadRights
    dsimp only
    split
    · exact castle 7 7 .white (by decide) (by decide)
    · exact castle 7 0 .white (by decide) (by decide)
    · exact castle 0 7 .black (by decide) (by decide)
    · exact castle 0 0 .black (by decide) (by decide)
    · split <;> exact sound
    · exact sound
    · exact sound

/-- Setting the clocks changes one square of the board, and only its last move. -/
theorem setClock_get (g : Game) (r c duration : Int) (rest : List Char) (x y : Int) :
    (setClock g r c duration rest).2.get x y =
      if OnBoard x y ∧ x = r ∧ y = c then
        { g.get r c with lastMove := (g.get r c).lastMove + (g.duration + duration) }
      else g.get x y :=
  Game.get_set _ _ _ _ _ _

/-- Setting the clocks keeps the board sound. -/
theorem setClock_sound {g : Game} (sound : Sound g) (r c duration : Int) (rest : List Char) :
    Sound (setClock g r c duration rest).2 := by
  refine ⟨fun x y => ?_, fun x y => ?_, fun x y => ?_⟩ <;> rw [setClock_get] <;> split
  · exact sound.nonneg r c
  · exact sound.nonneg x y
  · rename_i here
    obtain ⟨-, rfl, rfl⟩ := here
    exact sound.rook x y
  · exact sound.rook x y
  · rename_i here
    obtain ⟨-, rfl, rfl⟩ := here
    exact sound.pawn x y
  · exact sound.pawn x y

/-- Loading the full-move number keeps the board sound. -/
theorem loadFull_sound {g after : Game} (sound : Sound g) {r c : Int}
    {state : List Char} {code : Int}
    (loaded : loadFull g r c state = some (code, after)) : Sound after := by
  unfold loadFull at loaded
  split at loaded
  · rename_i rest
    cases number : parseInt rest with
    | none =>
      rw [number] at loaded
      cases loaded
    | some full =>
      rw [number, Option.bind_some] at loaded
      split at loaded
      · cases loaded
        exact sound
      split at loaded
      · cases loaded
      · have clocks := setClock_sound sound r c ((full.1 - 1) * 2) full.2
        rw [Option.some.inj loaded] at clocks
        exact clocks
  · cases loaded
    exact sound

/-- Loading the clocks keeps the board sound. -/
theorem loadClock_sound {g after : Game} (sound : Sound g) {r c : Int}
    {state : List Char} {code : Int}
    (loaded : loadClock g r c state = some (code, after)) : Sound after := by
  unfold loadClock at loaded
  split at loaded
  · have clocks := setClock_sound (sound.clocks g.duration 0) r c 0 []
    rw [Option.some.inj loaded] at clocks
    exact clocks
  · rename_i rest
    cases number : parseInt rest with
    | none =>
      rw [number] at loaded
      cases loaded
    | some clock =>
      rw [number, Option.bind_some] at loaded
      split at loaded
      · cases loaded
        exact sound.clocks g.duration _
      · exact loadFull_sound (sound.clocks g.duration _) loaded
  · cases loaded
    exact sound

/-- Loading the en passant square and the clocks keeps the board sound. -/
theorem loadPassing_sound {g after : Game} (sound : Sound g) {r : Int}
    {rest : List Char} {code : Int}
    (loaded : loadPassing g r rest = some (code, after)) : Sound after := by
  unfold loadPassing at loaded
  split at loaded
  · cases loaded
    exact sound
  · exact loadClock_sound sound loaded
  · split at loaded
    · cases loaded
      exact sound
    · split at loaded
      · cases loaded
      · exact loadClock_sound sound loaded

/-- Loading what follows the side to move keeps the board sound. -/
theorem loadRest_sound {g after : Game} (sound : Sound g) {r : Int} {rest : List Char} {code : Int}
    (loaded : loadRest g r rest = some (code, after)) : Sound after := by
  unfold loadRest at loaded
  split at loaded
  · rename_i rest
    have granted := loadRights_sound rest sound
    split at loaded
    · rename_i stopped
      cases loaded
      rw [stopped] at granted
      exact granted
    · rename_i stopped
      rw [stopped] at granted
      exact loadPassing_sound granted loaded
  · cases loaded
    exact sound

/-- Whatever the text, `init_game` keeps a sound board sound. -/
theorem initGame_sound {g after : Game} (sound : Sound g) {state : List Char} {code : Int}
    (loaded : initGame g state = some (code, after)) : Sound after := by
  have board := loadBoard_sound state 0 0 sound
  unfold initGame at loaded
  split at loaded
  · rename_i stopped
    cases loaded
    rw [stopped] at board
    exact board
  · rename_i g' rest r c stopped
    rw [stopped] at board
    have started : ∀ duration, Sound { g' with duration := duration } :=
      fun duration => board.clocks duration g'.lastBigMove
    split at loaded
    · cases loaded
      exact board
    · split at loaded
      · exact loadRest_sound (started 0) loaded
      · exact loadRest_sound (started 1) loaded
      · cases loaded
        exact board

/-- A game as it starts: new, or loaded over a new one. -/
inductive Started : Game → Prop
  /-- `new_game`. -/
  | new (memory : Game) : Started (newGame memory)
  /-- `init_game` on a new game, when it returns zero. -/
  | loaded (memory : Game) {state : List Char} {g : Game}
      (accepted : initGame (newGame memory) state = some (0, g)) : Started g

/-- However a game starts, it is sound. -/
theorem Started.sound {g : Game} (started : Started g) : Sound g := by
  cases started with
  | new memory => exact newGame_sound memory
  | loaded memory accepted => exact initGame_sound (newGame_sound memory) accepted

/-! ## The attack test is not re-entered -/

/-- `is_illegal`, `king_is_illegal` and `piece_is_attacked` call each other, but along every
run, refused calls included, of a new game or a loaded one, one open activation of the attack
test is enough for every call, and a larger bound changes nothing. -/
theorem Run.never_reentered {start g : Game} {calls : List (Move × Int)} (started : Started start)
    (run : Run start calls g) (m : Move) :
    ∃ code after, makeMove 1 g m = some (code, after) ∧ Returns g m code after := by
  obtain ⟨code, after, asked, -⟩ := makeMove_made (run.sound started.sound) m
  have bounded : ∀ extra, makeMove (1 + extra) g m = some (code, after) := by
    intro extra
    rw [Nat.add_comm]
    exact asked extra
  exact ⟨code, after, asked 0, 1, bounded⟩

/-- A king one step from castling, an unmoved rook, and a bare enemy king, loaded from text. -/
def castlingText : List Char :=
  ['4', 'k', '3', '/', '8', '/', '8', '/', '8', '/', '8', '/', '8', '/', '8', '/', 'R', '3', 'K',
    '3', ' ', 'w', ' ', 'Q', ' ', '-']

/-- Castling on a loaded board asks three attack tests, one after the other. -/
theorem never_reentered_castling :
    ∃ g, initGame (newGame blank) castlingText = some (0, g) ∧
      ∃ after, makeMove 1 g ⟨7, 4, 7, 2, .empty⟩ = some (0, after) := by
  have loads : (initGame (newGame blank) castlingText).map Prod.fst = some 0 := by decide +kernel
  cases loaded : initGame (newGame blank) castlingText with
  | none =>
    rw [loaded] at loads
    cases loads
  | some result =>
    obtain ⟨code, g⟩ := result
    rw [loaded] at loads
    obtain rfl : code = 0 := Option.some.inj loads
    have code : ((initGame (newGame blank) castlingText).bind fun result =>
        (makeMove 1 result.2 ⟨7, 4, 7, 2, .empty⟩).map Prod.fst) = some 0 := by decide +kernel
    rw [loaded, Option.bind_some] at code
    obtain ⟨value, after, asked, -⟩ :=
      Run.never_reentered (.loaded blank loaded) .start ⟨7, 4, 7, 2, .empty⟩
    rw [asked] at code
    obtain rfl : value = 0 := Option.some.inj code
    exact ⟨g, rfl, after, asked⟩

end Chessh
