import Chessh.Client.Chess

/-!
# The board elements `make_move` accesses

The elements of the board that are read or written, in order, beside each function of
`Chess.lean`: an element that is touched several times in a row stands there once. Copies of a
whole game are no accesses to an element.
-/

namespace Chessh

/-- A loop over a path, which ends at the first piece. -/
def pathAccesses (g : Game) : List (Int × Int) → List (Int × Int)
  | [] => []
  | s :: rest => s :: if (g.get s.1 s.2).type ≠ .empty then [] else pathAccesses g rest

/-- `rook_is_illegal`. -/
def rookAccesses (g : Game) (m : Move) : List (Int × Int) :=
  let column := (between (min m.rI m.rF) (max m.rI m.rF)).map fun i => (i, m.cI)
  let row := (between (min m.cI m.cF) (max m.cI m.cF)).map fun i => (m.rI, i)
  if (m.rI - m.rF) * (m.cI - m.cF) ≠ 0 then []
  else
    pathAccesses g column ++
      if column.any fun s => (g.get s.1 s.2).type ≠ .empty then [] else pathAccesses g row

/-- The `while` loop of `bishop_is_illegal`. -/
def bishopScanAccesses (g : Game) (rF cr cc : Int) : Nat → Int → Int → List (Int × Int)
  | 0, _, _ => []
  | turns + 1, r, c =>
    if r = rF then []
    else
      (r, c) ::
        if (g.get r c).type ≠ .empty then []
        else bishopScanAccesses g rF cr cc turns (r + cr) (c + cc)

/-- `bishop_is_illegal`. -/
def bishopAccesses (g : Game) (m : Move) : List (Int × Int) :=
  let dr := m.rF - m.rI
  let dc := m.cF - m.cI
  if dr.natAbs ≠ dc.natAbs then []
  else
    let cr : Int := if dr < 0 then -1 else 1
    let cc : Int := if dc < 0 then -1 else 1
    bishopScanAccesses g m.rF cr cc dr.natAbs (m.rI + cr) (m.cI + cc)

/-- `queen_is_illegal`. -/
def queenAccesses (g : Game) (m : Move) : List (Int × Int) :=
  let dr := (m.rF - m.rI).natAbs
  let dc := (m.cF - m.cI).natAbs
  if dr * dc = 0 then rookAccesses g m
  else if dr = dc then bishopAccesses g m
  else []

/-- The search of `king_is_illegal`: an element is read when its column passes the bounds of the
loop. -/
def castleScanAccesses (g : Game) (r cc : Int) : Nat → Int → List (Int × Int)
  | 0, _ => []
  | turns + 1, c =>
    if 0 ≤ c ∧ c ≤ 8 then
      (r, c) ::
        if (g.get r c).type = .empty then castleScanAccesses g r cc turns (c + cc) else []
    else []

section Attacked

variable (attacked : Game → Int → Int → Player → Option (Bool × Game))
  (attackedAccesses : Game → Int → Int → Player → List (Int × Int))

/-- The `||` chain of attack tests of `king_is_illegal`. -/
def anyAttackedAccesses (kr kc : Int) : List (Int × Int) → Game → List (Int × Int)
  | [], _ => []
  | (r, c) :: rest, g =>
    (kr, kc) :: (attackedAccesses g r c (g.get kr kc).player ++
      match attacked g r c (g.get kr kc).player with
      | none => []
      | some (hit, g) => if hit then [] else anyAttackedAccesses kr kc rest g)

/-- `king_is_illegal`. -/
def kingAccesses (g : Game) (m : Move) : List (Int × Int) :=
  let dr := m.rF - m.rI
  let dc := m.cF - m.cI
  if dr.natAbs ≤ 1 ∧ dc.natAbs ≤ 1 then []
  else
    (m.rI, m.cI) ::
      if (g.get m.rI m.cI).moves ≠ 0 ∨ dr ≠ 0 ∨ dc.natAbs ≠ 2 then []
      else
        let cc : Int := if dc < 0 then -1 else 1
        let c := castleScan g m.rI cc 9 (m.cI + cc)
        castleScanAccesses g m.rI cc 9 (m.cI + cc) ++
          if c < 0 ∨ 8 ≤ c then []
          else
            (m.rI, c) ::
              if (g.get m.rI c).type ≠ .rook ∨ (g.get m.rI c).moves ≠ 0 then []
              else
                anyAttackedAccesses attacked attackedAccesses m.rI m.cI
                  [(m.rI, m.cI), (m.rI, m.cI + cc), (m.rI, m.cI + cc * 2)] g

/-- `pawn_is_illegal`: whatever it decides, a label writes at most to the moving pawn. -/
def pawnAccesses (g : Game) (m : Move) : List (Int × Int) :=
  let piece := g.get m.rI m.cI
  let direction := direction piece.player
  (m.rI, m.cI) ::
    if m.cF = m.cI then
      (m.rI + direction, m.cI) ::
        if (g.get (m.rI + direction) m.cI).type ≠ .empty then []
        else if m.rI + direction = m.rF then [(m.rI, m.cI)]
        else if m.rI + direction * 2 = m.rF then [(m.rI + direction * 2, m.cI), (m.rI, m.cI)]
        else []
    else if (m.cF - m.cI).natAbs = 1 then
      if m.rI + direction ≠ m.rF then []
      else
        (m.rF, m.cF) ::
          if (g.get m.rF m.cF).type ≠ .empty then [(m.rI, m.cI)]
          else [(m.rI, m.cF), (m.rI, m.cI)]
    else []

/-- `is_illegal`. -/
def isIllegalAccessesWith (g : Game) (m : Move) (player : Player) : List (Int × Int) :=
  if ¬ OnBoard m.rI m.cI ∨ ¬ OnBoard m.rF m.cF then []
  else
    let piece := g.get m.rI m.cI
    let dst := g.get m.rF m.cF
    (m.rI, m.cI) ::
      if piece.type = .empty ∨ piece.player ≠ player then []
      else
        (m.rF, m.cF) ::
          if dst.type ≠ .empty ∧ dst.player = piece.player then []
          else
            match piece.type with
            | .rook => rookAccesses g m
            | .bishop => bishopAccesses g m
            | .queen => queenAccesses g m
            | .king => kingAccesses attacked attackedAccesses g m
            | .pawn => pawnAccesses g m
            | .knight | .empty | .other _ => []

end Attacked

/-- The scan of `piece_is_attacked`. -/
def attackScanAccesses (illegal : Game → Move → Player → Option Verdict)
    (illegalAccesses : Game → Move → Player → List (Int × Int)) (r c : Int) (player : Player) :
    List (Int × Int) → Game → List (Int × Int)
  | [], _ => []
  | (i, j) :: rest, g =>
    (i, j) ::
      if (g.get i j).type = .empty ∨ (g.get i j).player = player then
        attackScanAccesses illegal illegalAccesses r c player rest g
      else
        illegalAccesses g ⟨i, j, r, c, .queen⟩ (otherPlayer player) ++
          match illegal g ⟨i, j, r, c, .queen⟩ (otherPlayer player) with
          | none => []
          | some v =>
            if 0 ≤ v.code then []
            else attackScanAccesses illegal illegalAccesses r c player rest v.game

/-- `piece_is_attacked`, which looks at the square first and puts its type back last. -/
def pieceIsAttackedAccesses : Nat → Game → Int → Int → Player → List (Int × Int)
  | 0 => fun _ _ _ _ => []
  | depth + 1 => fun g r c player =>
    (r, c) :: (attackScanAccesses (isIllegalWith (pieceIsAttacked depth))
      (isIllegalAccessesWith (pieceIsAttacked depth) (pieceIsAttackedAccesses depth)) r c player
      squares (plantPawn g r c player) ++ [(r, c)])

/-- `is_illegal`. -/
def isIllegalAccesses (depth : Nat) : Game → Move → Player → List (Int × Int) :=
  isIllegalAccessesWith (pieceIsAttacked depth) (pieceIsAttackedAccesses depth)

/-- `move_unchecked`. -/
def moveUncheckedAccesses (m : Move) (captured : Option (Int × Int)) : List (Int × Int) :=
  (m.rF, m.cF) :: (captured.toList ++ [(m.rI, m.cI), (m.rF, m.cF), (m.rI, m.cI)])

/-- The two raw moves of an accepted move. -/
def Verdict.applyAccesses (v : Verdict) (m : Move) : List (Int × Int) :=
  moveUncheckedAccesses m v.captured ++
    if v.castle.rI ≠ -1 then moveUncheckedAccesses v.castle none else []

/-- The search of `is_in_check` for the king. -/
def findKingAccesses (g : Game) (player : Player) : List (Int × Int) → List (Int × Int)
  | [] => []
  | s :: rest =>
    s :: if (g.get s.1 s.2).type = .king ∧ (g.get s.1 s.2).player = player then []
      else findKingAccesses g player rest

/-- `is_in_check`. -/
def isInCheckAccesses (depth : Nat) (g : Game) (player : Player) : List (Int × Int) :=
  findKingAccesses g player squares ++
    match findKing g player with
    | none => []
    | some (r, c) => pieceIsAttackedAccesses depth g r c player

/-- `make_move_no_checkmate`. -/
def makeMoveNoCheckmateAccesses (depth : Nat) (g : Game) (m : Move) : List (Int × Int) :=
  isIllegalAccesses depth g m (getPlayer g) ++
    match isIllegal depth g m (getPlayer g) with
    | none => []
    | some v =>
      if v.code < 0 then []
      else v.applyAccesses m ++ isInCheckAccesses depth (v.apply m) (getPlayer g)

/-- `piece_can_move`, over the given targets. -/
def pieceCanMoveAccesses (depth : Nat) (g : Game) (row col : Int) :
    List (Int × Int) → List (Int × Int)
  | [] => []
  | (i, j) :: rest =>
    makeMoveNoCheckmateAccesses depth g ⟨row, col, i, j, .queen⟩ ++
      match makeMoveNoCheckmate depth g ⟨row, col, i, j, .queen⟩ with
      | none => []
      | some result => if 0 ≤ result.1 then [] else pieceCanMoveAccesses depth g row col rest

/-- `can_make_move`, over the given squares. -/
def canMakeMoveAccesses (depth : Nat) (g : Game) (player : Player) :
    List (Int × Int) → List (Int × Int)
  | [] => []
  | (i, j) :: rest =>
    (i, j) ::
      if (g.get i j).type = .empty ∨ (g.get i j).player ≠ player then
        canMakeMoveAccesses depth g player rest
      else
        pieceCanMoveAccesses depth g i j squares ++
          match pieceCanMove depth g i j with
          | none => []
          | some can => if can then [] else canMakeMoveAccesses depth g player rest

/-- `make_move`. -/
def makeMoveAccesses (depth : Nat) (g : Game) (m : Move) : List (Int × Int) :=
  makeMoveNoCheckmateAccesses depth g m ++
    match makeMoveNoCheckmate depth g m with
    | none => []
    | some (code, after) =>
      if code = illegalMove ∨ code = missingPromotion then []
      else if 150 ≤ after.duration - after.lastBigMove then []
      else if 100 ≤ after.duration - after.lastBigMove then []
      else
        canMakeMoveAccesses depth after (otherPlayer (getPlayer g)) squares ++
          match canMakeMove depth after (otherPlayer (getPlayer g)) with
          | some false => isInCheckAccesses depth after (otherPlayer (getPlayer g))
          | _ => []

end Chessh
