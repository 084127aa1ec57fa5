import Mathlib.Tactic

/-!
# Games, pieces and moves

The records of `chess.h`. A C enumeration is an object that can hold more bit
patterns than it has enumerators, and both enumerations of the engine are read
before anyone sets them: `new_game` leaves the owner of the empty squares
untouched and `count_valid_moves` leaves the promotion of its moves untouched.
Each enumeration therefore has one more constructor, `other`, for the patterns
outside its enumerators. The counters of plies are unbounded integers; no
executing game drives them near the width of `int`.
-/

namespace Chessh

/-- `enum piece_type`; `other` holds the patterns from seven on. -/
inductive PieceType
  | rook
  | knight
  | bishop
  | queen
  | king
  | pawn
  | empty
  | other (raw : Nat)
  deriving DecidableEq, Repr

/-- `enum player`; `other` holds the patterns from two on. -/
inductive Player
  | white
  | black
  | other (raw : Nat)
  deriving DecidableEq, Repr

/-- `struct piece`. -/
structure Piece where
  /-- The kind of piece, or `empty`. -/
  type : PieceType
  /-- The owner; stale or never set on an empty square. -/
  player : Player
  /-- Total number of times this piece has moved. -/
  moves : Int
  /-- Last time this piece has moved. -/
  lastMove : Int
  deriving DecidableEq, Repr

/-- `struct game`: the eight rows in reading order from white's perspective. -/
structure Game where
  /-- `board.board[r][c]`. -/
  board : Fin 8 → Fin 8 → Piece
  /-- Number of turns played, both players' moves included. -/
  duration : Int
  /-- Documented as the last capture or pawn move, for the fifty-move rule. -/
  lastBigMove : Int

/-- `struct move`: four unchecked integers and the piece to promote to. -/
structure Move where
  /-- Initial row. -/
  rI : Int
  /-- Initial column. -/
  cI : Int
  /-- Final row. -/
  rF : Int
  /-- Final column. -/
  cF : Int
  /-- Promote to this piece, if valid; `empty` when the user named none. -/
  promotion : PieceType
  deriving DecidableEq, Repr

/-- `ILLEGAL_MOVE`. -/
def illegalMove : Int := -1
/-- `WHITE_WIN`. -/
def whiteWin : Int := -2
/-- `BLACK_WIN`. -/
def blackWin : Int := -3
/-- `FORCED_DRAW`. -/
def forcedDraw : Int := -4
/-- `MISSING_PROMOTION`. -/
def missingPromotion : Int := -5
/-- `IO_ERROR`. -/
def ioError : Int := -6
/-- `DRAW_OFFER`. -/
def drawOffer : Int := 1

/-! ## Squares -/

/-- `is_in_bounds(val, 0, 8)` for both coordinates. -/
def OnBoard (r c : Int) : Prop := (0 ≤ r ∧ r < 8) ∧ 0 ≤ c ∧ c < 8

instance (r c : Int) : Decidable (OnBoard r c) :=
  inferInstanceAs (Decidable ((0 ≤ r ∧ r < 8) ∧ 0 ≤ c ∧ c < 8))

/-- Coordinates on the board are a pair of indices. -/
theorem OnBoard.exists_fin {r c : Int} (on : OnBoard r c) : ∃ i j : Fin 8, r = i ∧ c = j :=
  ⟨⟨r.toNat, by have := on.1; omega⟩, ⟨c.toNat, by have := on.2; omega⟩,
    (Int.toNat_of_nonneg on.1.1).symm, (Int.toNat_of_nonneg on.2.1).symm⟩

/-- What a read outside the board yields. No result of the engine depends on it. -/
def offBoard : Piece := ⟨.empty, .white, 0, 0⟩

namespace Game

/-- Reading `board.board[r][c]`. -/
def get (g : Game) (r c : Int) : Piece :=
  if h : OnBoard r c then
    g.board ⟨r.toNat, by have := h.1; omega⟩ ⟨c.toNat, by have := h.2; omega⟩
  else offBoard

/-- Writing `board.board[r][c]`; a write outside the board touches no field of the game. -/
def set (g : Game) (r c : Int) (p : Piece) : Game :=
  { g with board := fun i j => if (i : Int) = r ∧ (j : Int) = c then p else g.board i j }

/-- Writing `board.board[r][c].type`. -/
def setType (g : Game) (r c : Int) (t : PieceType) : Game :=
  g.set r c { g.get r c with type := t }

/-- `++game->duration`. -/
def tick (g : Game) : Game := { g with duration := g.duration + 1 }

/-- `game->last_big_move = game->duration`. -/
def markBig (g : Game) : Game := { g with lastBigMove := g.duration }

/-- Off the board every game reads the same. -/
theorem get_off {g : Game} {r c : Int} (off : ¬ OnBoard r c) : g.get r c = offBoard :=
  dif_neg off

/-- On the board a read is an indexing. -/
theorem get_coe (g : Game) (i j : Fin 8) : g.get i j = g.board i j := by
  have on : OnBoard i j := ⟨⟨by omega, by omega⟩, by omega, by omega⟩
  simp [get, dif_pos on]

/-- A read after a write sees the write exactly on its square. -/
theorem get_set (g : Game) (r c : Int) (p : Piece) (r' c' : Int) :
    (g.set r c p).get r' c' = if OnBoard r' c' ∧ r' = r ∧ c' = c then p else g.get r' c' := by
  by_cases on : OnBoard r' c'
  · have hr : ((r'.toNat : Nat) : Int) = r' := Int.toNat_of_nonneg on.1.1
    have hc : ((c'.toNat : Nat) : Int) = c' := Int.toNat_of_nonneg on.2.1
    rw [get, dif_pos on, get, dif_pos on]
    simp only [set, hr, hc, on, true_and]
  · simp only [get_off on, on, false_and, ↓reduceIte]

/-- Reading the square just written. -/
theorem get_set_self (g : Game) {r c : Int} (p : Piece) (on : OnBoard r c) :
    (g.set r c p).get r c = p := by
  rw [get_set, if_pos ⟨on, rfl, rfl⟩]

/-- A write leaves every other square alone. -/
theorem get_set_ne (g : Game) {r c : Int} (p : Piece) {r' c' : Int} (ne : ¬ (r' = r ∧ c' = c)) :
    (g.set r c p).get r' c' = g.get r' c' := by
  rw [get_set, if_neg fun h => ne h.2]

/-- A read after a write to a type. -/
theorem get_setType (g : Game) (r c : Int) (t : PieceType) (r' c' : Int) :
    (g.setType r c t).get r' c' =
      if OnBoard r' c' ∧ r' = r ∧ c' = c then { g.get r c with type := t } else g.get r' c' :=
  get_set _ _ _ _ _ _

/-- The clock is not on the board. -/
@[simp] theorem get_tick (g : Game) (r c : Int) : g.tick.get r c = g.get r c := rfl

/-- Neither is the time of the last big move. -/
@[simp] theorem get_markBig (g : Game) (r c : Int) : g.markBig.get r c = g.get r c := rfl

/-- A write to the board leaves the number of turns alone. -/
@[simp] theorem duration_set (g : Game) (r c : Int) (p : Piece) :
    (g.set r c p).duration = g.duration := rfl

/-- A write to the board leaves the time of the last big move alone. -/
@[simp] theorem lastBigMove_set (g : Game) (r c : Int) (p : Piece) :
    (g.set r c p).lastBigMove = g.lastBigMove := rfl

/-- A write to a type leaves the number of turns alone. -/
@[simp] theorem duration_setType (g : Game) (r c : Int) (t : PieceType) :
    (g.setType r c t).duration = g.duration := rfl

/-- A write to a type leaves the time of the last big move alone. -/
@[simp] theorem lastBigMove_setType (g : Game) (r c : Int) (t : PieceType) :
    (g.setType r c t).lastBigMove = g.lastBigMove := rfl

/-- Two games that read the same everywhere and have the same counters are the same. -/
theorem ext_get {g h : Game} (same : ∀ r c, OnBoard r c → g.get r c = h.get r c)
    (duration : g.duration = h.duration) (big : g.lastBigMove = h.lastBigMove) : g = h := by
  obtain ⟨gb, gd, gl⟩ := g
  obtain ⟨hb, hd, hl⟩ := h
  obtain rfl : gd = hd := duration
  obtain rfl : gl = hl := big
  have boards : gb = hb := by
    funext i j
    have on : OnBoard i j := ⟨⟨by omega, by omega⟩, by omega, by omega⟩
    simpa [get, dif_pos on] using same i j on
  rw [boards]

/-- Writing back what is there changes nothing. -/
theorem set_get (g : Game) (r c : Int) : g.set r c (g.get r c) = g := by
  apply ext_get
  · intro r' c' on
    rw [get_set]
    split
    · rename_i here
      rw [here.2.1, here.2.2]
    · rfl
  · rfl
  · rfl

end Game

/-- The 64 squares in the order of the engine's nested loops. -/
def squares : List (Int × Int) :=
  [0, 1, 2, 3, 4, 5, 6, 7].flatMap fun r => [0, 1, 2, 3, 4, 5, 6, 7].map fun c => (r, c)

/-- `get_player`. -/
def getPlayer (g : Game) : Player := if g.duration % 2 = 0 then .white else .black

/-- `player == WHITE ? BLACK : WHITE`. -/
def otherPlayer (p : Player) : Player := if p = .white then .black else .white

/-- The type `new_game` puts on a square. -/
def newType (r c : Nat) : PieceType :=
  if r = 1 ∨ r = 6 then .pawn
  else if r = 0 ∨ r = 7 then
    match c with
    | 0 | 7 => .rook
    | 1 | 6 => .knight
    | 2 | 5 => .bishop
    | 3 => .queen
    | _ => .king
  else .empty

/-- `new_game` over freshly allocated memory: rows two to five keep whatever owner the
memory held, and every square keeps whatever time of its last move it held. -/
def newGame (memory : Game) : Game where
  board r c :=
    { type := newType r c
      player :=
        if r.val < 2 then .black else if 6 ≤ r.val then .white else (memory.board r c).player
      moves := 0
      lastMove := (memory.board r c).lastMove }
  duration := 0
  lastBigMove := 0

end Chessh
