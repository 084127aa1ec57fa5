import Chessh.Client.Data

/-!
# The rules engine of `chess.c`
-/

namespace Chessh

/-- What `is_illegal` leaves behind. -/
structure Verdict where
  /-- The return value, negative on rejection. -/
  code : Int
  /-- The board afterwards: a piece rule may have written to it. -/
  game : Game
  /-- `*captured`: the square of an extra casualty. -/
  captured : Option (Int × Int)
  /-- `*castle`: a move that also happens; its initial row is negative for none. -/
  castle : Move

/-- `castle.r_i = castle.r_f = castle.c_i = castle.c_f = -1`. -/
def noCastle : Move := ⟨-1, -1, -1, -1, .empty⟩

/-- `return code` with nothing written. -/
def Verdict.plain (g : Game) (code : Int) : Verdict := ⟨code, g, none, noCastle⟩

/-- The integers strictly between two others, upwards. -/
def between (lo hi : Int) : List Int :=
  (List.range (hi - lo - 1).toNat).map fun k : Nat => lo + 1 + (k : Int)

/-- Membership in the range of a path loop. -/
@[simp] theorem mem_between {lo hi i : Int} : i ∈ between lo hi ↔ lo < i ∧ i < hi := by
  simp only [between, List.mem_map, List.mem_range]
  constructor
  · rintro ⟨k, bound, rfl⟩
    omega
  · rintro ⟨low, high⟩
    exact ⟨(i - lo - 1).toNat, by omega, by omega⟩

/-- `rook_is_illegal`. -/
def rookIsIllegal (g : Game) (m : Move) : Int :=
  if (m.rI - m.rF) * (m.cI - m.cF) ≠ 0 then illegalMove
  else if (between (min m.rI m.rF) (max m.rI m.rF)).any
      fun i => (g.get i m.cI).type ≠ .empty then illegalMove
  else if (between (min m.cI m.cF) (max m.cI m.cF)).any
      fun i => (g.get m.rI i).type ≠ .empty then illegalMove
  else 0

/-- `knight_is_illegal`. -/
def knightIsIllegal (m : Move) : Int :=
  let dr := (m.rF - m.rI).natAbs
  let dc := (m.cF - m.cI).natAbs
  if min dr dc = 1 ∧ max dr dc = 2 then 0 else illegalMove

/-- The `while` loop of `bishop_is_illegal`, for at most the given number of turns. -/
def bishopScan (g : Game) (rF cr cc : Int) : Nat → Int → Int → Int
  | 0, _, _ => 0
  | turns + 1, r, c =>
    if r = rF then 0
    else if (g.get r c).type ≠ .empty then illegalMove
    else bishopScan g rF cr cc turns (r + cr) (c + cc)

/-- `bishop_is_illegal`. The walk reaches the final row after `|dr|` turns; `is_illegal`
has already refused a move that stays where it is. -/
def bishopIsIllegal (g : Game) (m : Move) : Int :=
  let dr := m.rF - m.rI
  let dc := m.cF - m.cI
  if dr.natAbs ≠ dc.natAbs then illegalMove
  else
    let cr : Int := if dr < 0 then -1 else 1
    let cc : Int := if dc < 0 then -1 else 1
    bishopScan g m.rF cr cc dr.natAbs (m.rI + cr) (m.cI + cc)

/-- `queen_is_illegal`. -/
def queenIsIllegal (g : Game) (m : Move) : Int :=
  let dr := (m.rF - m.rI).natAbs
  let dc := (m.cF - m.cI).natAbs
  if dr * dc = 0 then rookIsIllegal g m
  else if dr = dc then bishopIsIllegal g m
  else illegalMove

/-- The search of `king_is_illegal` for the next piece in the castling direction. The
column past the last may be looked at; whatever is found there, the result is past the
board. -/
def castleScan (g : Game) (r cc : Int) : Nat → Int → Int
  | 0, c => c
  | turns + 1, c =>
    if 0 ≤ c ∧ c ≤ 8 ∧ (g.get r c).type = .empty then castleScan g r cc turns (c + cc) else c

/-- The `||` chain of attack tests of `king_is_illegal`: each test asks for the owner then
standing on the king's square, and the first hit ends the chain. -/
def anyAttacked (attacked : Game → Int → Int → Player → Option (Bool × Game)) (kr kc : Int) :
    List (Int × Int) → Game → Option (Bool × Game)
  | [], g => some (false, g)
  | (r, c) :: rest, g =>
    (attacked g r c (g.get kr kc).player).bind fun (hit, g) =>
      if hit then some (true, g) else anyAttacked attacked kr kc rest g

/-- `king_is_illegal`, over the attack test it calls. -/
def kingIsIllegal (attacked : Game → Int → Int → Player → Option (Bool × Game))
    (g : Game) (m : Move) : Option Verdict :=
  let dr := m.rF - m.rI
  let dc := m.cF - m.cI
  if dr.natAbs ≤ 1 ∧ dc.natAbs ≤ 1 then some (.plain g 0)
  else if (g.get m.rI m.cI).moves ≠ 0 ∨ dr ≠ 0 ∨ dc.natAbs ≠ 2 then some (.plain g illegalMove)
  else
    let cc : Int := if dc < 0 then -1 else 1
    let c := castleScan g m.rI cc 9 (m.cI + cc)
    if c < 0 ∨ 8 ≤ c then some (.plain g illegalMove)
    else if (g.get m.rI c).type ≠ .rook then some (.plain g illegalMove)
    else if (g.get m.rI c).moves ≠ 0 then some (.plain g illegalMove)
    else
      (anyAttacked attacked m.rI m.cI
        [(m.rI, m.cI), (m.rI, m.cI + cc), (m.rI, m.cI + cc * 2)] g).bind fun (hit, g) =>
          if hit then some (.plain g illegalMove)
          else some ⟨0, g, none, ⟨m.rI, c, m.rI, m.cI + cc, .empty⟩⟩

/-- `case ROOK: case KNIGHT: case BISHOP: case QUEEN:`. -/
def PieceType.isPromotion : PieceType → Bool
  | .rook | .knight | .bishop | .queen => true
  | _ => false

/-- The label `promote_pawn`, reached by every pawn move that passes its geometry. The
promotion is written into the live board. -/
def promotePawn (g : Game) (m : Move) (captured : Option (Int × Int)) : Verdict :=
  let piece := g.get m.rI m.cI
  if (piece.player = .white ∧ m.rF = 0) ∨ (piece.player = .black ∧ m.rF = 7) then
    if m.promotion.isPromotion then
      ⟨0, g.setType m.rI m.cI m.promotion, captured, noCastle⟩
    else ⟨missingPromotion, g, captured, noCastle⟩
  else ⟨0, g, captured, noCastle⟩

/-- `direction`: the way a pawn advances. -/
def direction (p : Player) : Int := if p = .white then -1 else 1

/-- A pawn advances by one row, one way or the other. -/
theorem direction_eq (p : Player) : direction p = -1 ∨ direction p = 1 := by
  unfold direction
  split
  · exact Or.inl rfl
  · exact Or.inr rfl

/-- `pawn_is_illegal`. -/
def pawnIsIllegal (g : Game) (m : Move) : Verdict :=
  let piece := g.get m.rI m.cI
  let direction := direction piece.player
  if m.cF = m.cI then
    if (g.get (m.rI + direction) m.cI).type ≠ .empty then .plain g illegalMove
    else if m.rI + direction = m.rF then promotePawn g m none
    else if m.rI + direction * 2 = m.rF ∧
        (g.get (m.rI + direction * 2) m.cI).type = .empty ∧ piece.moves = 0 then
      promotePawn g m none
    else .plain g illegalMove
  else if (m.cF - m.cI).natAbs = 1 then
    if m.rI + direction ≠ m.rF then .plain g illegalMove
    else
      let pessant := g.get m.rI m.cF
      if (g.get m.rF m.cF).type ≠ .empty then promotePawn g m none
      else if pessant.type = .pawn ∧ pessant.player ≠ piece.player ∧ pessant.moves = 1 ∧
          ((piece.player = .white ∧ m.rI = 3) ∨ (piece.player = .black ∧ m.rI = 4)) ∧
          pessant.lastMove = g.duration then
        promotePawn g m (some (m.rI, m.cF))
      else .plain g illegalMove
  else .plain g illegalMove

/-- `is_illegal`, over the attack test its king rule calls. -/
def isIllegalWith (attacked : Game → Int → Int → Player → Option (Bool × Game))
    (g : Game) (m : Move) (player : Player) : Option Verdict :=
  if ¬ OnBoard m.rI m.cI ∨ ¬ OnBoard m.rF m.cF then some (.plain g illegalMove)
  else
    let piece := g.get m.rI m.cI
    let dst := g.get m.rF m.cF
    if piece.type = .empty ∨ piece.player ≠ player then some (.plain g illegalMove)
    else if dst.type ≠ .empty ∧ dst.player = piece.player then some (.plain g illegalMove)
    else
      match piece.type with
      | .rook => some (.plain g (rookIsIllegal g m))
      | .knight => some (.plain g (knightIsIllegal m))
      | .bishop => some (.plain g (bishopIsIllegal g m))
      | .queen => some (.plain g (queenIsIllegal g m))
      | .king => kingIsIllegal attacked g m
      | .pawn => some (pawnIsIllegal g m)
      | .empty | .other _ => some (.plain g illegalMove)

/-- The scan of `piece_is_attacked` over the given squares, over the rule check it calls. -/
def attackScan (illegal : Game → Move → Player → Option Verdict) (r c : Int) (player : Player) :
    List (Int × Int) → Game → Option (Bool × Game)
  | [], g => some (false, g)
  | (i, j) :: rest, g =>
    if (g.get i j).type = .empty ∨ (g.get i j).player = player then
      attackScan illegal r c player rest g
    else
      (illegal g ⟨i, j, r, c, .queen⟩ (otherPlayer player)).bind fun v =>
        if 0 ≤ v.code then some (true, v.game)
        else attackScan illegal r c player rest v.game

/-- The pawn `piece_is_attacked` plants on an empty square. -/
def plantPawn (g : Game) (r c : Int) (player : Player) : Game :=
  if (g.get r c).type = .empty then
    g.set r c { g.get r c with type := .pawn, player := player }
  else g

/-- `piece_is_attacked`, over the rule check it calls. The type of the square is put back
afterwards, its owner is not. -/
def pieceIsAttackedWith (illegal : Game → Move → Player → Option Verdict)
    (g : Game) (r c : Int) (player : Player) : Option (Bool × Game) :=
  (attackScan illegal r c player squares (plantPawn g r c player)).map fun (ret, after) =>
    (ret, after.setType r c (g.get r c).type)

/-- `piece_is_attacked`. It calls `is_illegal`, whose king rule calls it again; `depth`
bounds how many of its activations may be open at once, and `none` says that the bound
was exceeded. -/
def pieceIsAttacked : Nat → Game → Int → Int → Player → Option (Bool × Game)
  | 0 => fun _ _ _ _ => none
  | depth + 1 => pieceIsAttackedWith (isIllegalWith (pieceIsAttacked depth))

/-- `is_illegal`. -/
def isIllegal (depth : Nat) : Game → Move → Player → Option Verdict :=
  isIllegalWith (pieceIsAttacked depth)

/-- `if (captured != NULL) captured->type = EMPTY`. -/
def Game.clear (g : Game) : Option (Int × Int) → Game
  | some (r, c) => g.setType r c .empty
  | none => g

/-- Clearing an extra casualty empties one square. -/
theorem Game.get_clear (g : Game) (captured : Option (Int × Int)) (r c : Int) :
    (g.clear captured).get r c =
      if captured = some (r, c) then { g.get r c with type := .empty } else g.get r c := by
  cases captured with
  | none => simp [clear]
  | some s =>
    obtain ⟨a, b⟩ := s
    rw [clear, Game.get_setType]
    by_cases here : r = a ∧ c = b
    · obtain ⟨rfl, rfl⟩ := here
      by_cases on : OnBoard r c
      · simp [on]
      · simp [on, Game.get_off on, offBoard]
    · rw [if_neg fun h => here h.2, if_neg]
      intro same
      simp only [Option.some.injEq, Prod.mk.injEq] at same
      exact here ⟨same.1.symm, same.2.symm⟩

/-- Clearing a square leaves the number of turns alone. -/
@[simp] theorem Game.duration_clear (g : Game) (captured : Option (Int × Int)) :
    (g.clear captured).duration = g.duration := by
  cases captured <;> rfl

/-- Clearing a square leaves the time of the last big move alone. -/
@[simp] theorem Game.lastBigMove_clear (g : Game) (captured : Option (Int × Int)) :
    (g.clear captured).lastBigMove = g.lastBigMove := by
  cases captured <;> rfl

/-- `move_unchecked`. -/
def moveUnchecked (g : Game) (m : Move) (captured : Option (Int × Int))
    (shouldAdvanceClock : Bool) : Game :=
  let g := if shouldAdvanceClock then g.tick else g
  let g := if (g.get m.rF m.cF).type ≠ .empty ∨ captured ≠ none then g.markBig else g
  let g := g.clear captured
  let src := g.get m.rI m.cI
  let g := g.set m.rF m.cF { src with moves := src.moves + 1, lastMove := g.duration }
  g.setType m.rI m.cI .empty

/-- The search of `is_in_check` for the king. -/
def findKing (g : Game) (player : Player) : Option (Int × Int) :=
  squares.find? fun (r, c) => (g.get r c).type = .king ∧ (g.get r c).player = player

/-- `is_in_check`. -/
def isInCheck (depth : Nat) (g : Game) (player : Player) : Option (Bool × Game) :=
  match findKing g player with
  | none => some (true, g)
  | some (r, c) => pieceIsAttacked depth g r c player

/-- The two raw moves of an accepted move. -/
def Verdict.apply (v : Verdict) (m : Move) : Game :=
  let g := moveUnchecked v.game m v.captured true
  if v.castle.rI ≠ -1 then moveUnchecked g v.castle none false else g

/-- `make_move_no_checkmate`. The backup is taken after `is_illegal` has run. -/
def makeMoveNoCheckmate (depth : Nat) (g : Game) (m : Move) : Option (Int × Game) :=
  (isIllegal depth g m (getPlayer g)).bind fun v =>
    if v.code < 0 then some (v.code, v.game)
    else
      (isInCheck depth (v.apply m) (getPlayer g)).map fun (check, after) =>
        if check then (illegalMove, v.game) else (v.code, after)

/-- `piece_can_move`: every trial runs on a scratch copy. -/
def pieceCanMove (depth : Nat) (g : Game) (row col : Int) : Option Bool :=
  squares.anyM fun (i, j) =>
    (makeMoveNoCheckmate depth g ⟨row, col, i, j, .queen⟩).map fun result => decide (0 ≤ result.1)

/-- `can_make_move`. -/
def canMakeMove (depth : Nat) (g : Game) (player : Player) : Option Bool :=
  squares.anyM fun (i, j) =>
    if (g.get i j).type = .empty ∨ (g.get i j).player ≠ player then some false
    else pieceCanMove depth g i j

/-- `make_move`. -/
def makeMove (depth : Nat) (g : Game) (m : Move) : Option (Int × Game) :=
  (makeMoveNoCheckmate depth g m).bind fun (code, after) =>
    if code = illegalMove ∨ code = missingPromotion then some (code, after)
    else if 150 ≤ after.duration - after.lastBigMove then some (forcedDraw, after)
    else if 100 ≤ after.duration - after.lastBigMove then some (drawOffer, after)
    else
      (canMakeMove depth after (otherPlayer (getPlayer g))).bind fun can =>
        if can then some (code, after)
        else
          (isInCheck depth after (otherPlayer (getPlayer g))).map fun (check, final) =>
            if check then (if getPlayer g = .white then whiteWin else blackWin, final)
            else (forcedDraw, final)

/-! ## Calls and runs -/

/-- `make_move(game, move)` returns the code and leaves the game: every large enough bound
on the nesting of attack tests gives this result. -/
def Returns (g : Game) (m : Move) (code : Int) (after : Game) : Prop :=
  ∃ depth, ∀ extra, makeMove (depth + extra) g m = some (code, after)

/-- A call returns at most one result. -/
theorem Returns.unique {g : Game} {m : Move} {code code' : Int} {after after' : Game}
    (first : Returns g m code after) (second : Returns g m code' after') :
    code = code' ∧ after = after' := by
  obtain ⟨d, first⟩ := first
  obtain ⟨d', second⟩ := second
  have same := (first d').symm.trans ((congrArg (fun k => makeMove k g m) (Nat.add_comm d d')).trans
    (second d))
  simpa using same

/-- A call that returns the same at every nesting returns it. -/
theorem Returns.of_asked {g : Game} {m : Move} {code : Int} {after : Game}
    (asked : ∀ depth, makeMove (depth + 1) g m = some (code, after)) : Returns g m code after := by
  refine ⟨1, fun extra => ?_⟩
  rw [Nat.add_comm]
  exact asked extra

/-- The move was played: the code is neither `ILLEGAL_MOVE` nor `MISSING_PROMOTION`. -/
def Accepted (code : Int) : Prop := code ≠ illegalMove ∧ code ≠ missingPromotion

instance (code : Int) : Decidable (Accepted code) := inferInstanceAs (Decidable (_ ∧ _))

/-- A sequence of calls of `make_move` on one game, with the codes they return. -/
inductive Run (start : Game) : List (Move × Int) → Game → Prop
  /-- No call yet. -/
  | start : Run start [] start
  /-- One more call. -/
  | step {calls : List (Move × Int)} {g : Game} {m : Move} {code : Int} {after : Game} :
      Run start calls g → Returns g m code after → Run start (calls ++ [(m, code)]) after

end Chessh
