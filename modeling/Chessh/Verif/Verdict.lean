import Chessh.Verif.Attack

/-!
# What `is_illegal` can decide

`Judged` lists every outcome of the legality check with the writes it leaves behind, and
`isIllegal_judged` shows that the check ends in one of them with a single activation of
the attack test, on any board whose unmoved rooks stand on their home corners. The later
proofs about moves are case analyses over this list.
-/

namespace Chessh

/-- What every position of a game satisfies, whatever calls were refused on the way: move
counters never fall, an unmoved rook is one of the four original rooks, and an unmoved
pawn stands on its start row. -/
structure Sound (g : Game) : Prop where
  /-- Move counters are not negative. -/
  nonneg : ∀ r c, 0 ≤ (g.get r c).moves
  /-- Unmoved rooks stand on the corners of their owner's home row. -/
  rook : ∀ r c, (g.get r c).type = .rook → (g.get r c).moves = 0 →
    (c = 0 ∨ c = 7) ∧
      ((r = 0 ∧ (g.get r c).player = .black) ∨ (r = 7 ∧ (g.get r c).player = .white))
  /-- Unmoved pawns stand on their owner's start row. -/
  pawn : ∀ r c, (g.get r c).type = .pawn → (g.get r c).moves = 0 →
    ((g.get r c).player = .white → r = 6) ∧ ((g.get r c).player = .black → r = 1)

/-- Unmoved rooks stand on the corners of their owner's home row: all the legality check needs
to end with one activation of the attack test. -/
def RooksHome (g : Game) : Prop :=
  ∀ r c, (g.get r c).type = .rook → (g.get r c).moves = 0 →
    (c = 0 ∨ c = 7) ∧
      ((r = 0 ∧ (g.get r c).player = .black) ∨ (r = 7 ∧ (g.get r c).player = .white))

/-- The attack tests need only the columns of the unmoved rooks. -/
theorem RooksHome.cornered {g : Game} (home : RooksHome g) : RooksCornered g :=
  fun r c rook unmoved => (home r c rook unmoved).1

/-- The unmoved rooks of a sound board are at home. -/
theorem Sound.home {g : Game} (sound : Sound g) : RooksHome g := sound.rook

/-- On a sound board they stand in the corner columns. -/
theorem Sound.cornered {g : Game} (sound : Sound g) : RooksCornered g := sound.home.cornered

/-! ## Claimed squares -/

/-- A claim changes the owner of one empty square. -/
theorem get_claim (g : Game) (r c : Int) (player : Player) (x y : Int) :
    (claim g r c player).get x y =
      if OnBoard x y ∧ x = r ∧ y = c ∧ (g.get r c).type = .empty then
        { g.get r c with player := player }
      else g.get x y := by
  unfold claim
  split
  · rename_i empty
    rw [Game.get_set]
    simp only [empty, and_true]
  · rename_i full
    rw [if_neg fun h => full h.2.2.2]

/-- A claim leaves every type alone. -/
@[simp] theorem claim_type (g : Game) (r c : Int) (player : Player) (x y : Int) :
    ((claim g r c player).get x y).type = (g.get x y).type := by
  rw [get_claim]
  split
  · rename_i here
    rw [here.2.1, here.2.2.1]
  · rfl

/-- A claim leaves every move counter alone. -/
@[simp] theorem claim_moves (g : Game) (r c : Int) (player : Player) (x y : Int) :
    ((claim g r c player).get x y).moves = (g.get x y).moves := by
  rw [get_claim]
  split
  · rename_i here
    rw [here.2.1, here.2.2.1]
  · rfl

/-- A claim leaves occupied squares alone. -/
theorem claim_full {g : Game} {r c : Int} {player : Player} {x y : Int}
    (full : (g.get x y).type ≠ .empty) : (claim g r c player).get x y = g.get x y := by
  rw [get_claim, if_neg]
  rintro ⟨-, rfl, rfl, empty⟩
  exact full empty

/-- Claiming an occupied square does nothing. -/
theorem claim_occupied {g : Game} {r c : Int} (player : Player)
    (full : (g.get r c).type ≠ .empty) : claim g r c player = g :=
  if_neg full

/-- A claim leaves the number of turns alone. -/
@[simp] theorem claim_duration (g : Game) (r c : Int) (player : Player) :
    (claim g r c player).duration = g.duration := by
  unfold claim
  split <;> rfl

/-- A claim leaves the time of the last big move alone. -/
@[simp] theorem claim_lastBigMove (g : Game) (r c : Int) (player : Player) :
    (claim g r c player).lastBigMove = g.lastBigMove := by
  unfold claim
  split <;> rfl

/-- The straight rule reads only types. -/
theorem rookIsIllegal_congr {g h : Game} (same : ∀ x y, (g.get x y).type = (h.get x y).type)
    (m : Move) : rookIsIllegal g m = rookIsIllegal h m := by
  simp only [rookIsIllegal, same]

/-- The diagonal walk reads only types. -/
theorem bishopScan_congr {g h : Game} (same : ∀ x y, (g.get x y).type = (h.get x y).type)
    (rF cr cc : Int) : ∀ (turns : Nat) (r c : Int),
      bishopScan g rF cr cc turns r c = bishopScan h rF cr cc turns r c := by
  intro turns
  induction turns with
  | zero => intro r c; rfl
  | succ turns ih =>
    intro r c
    simp only [bishopScan, same, ih]

/-- The diagonal rule reads only types. -/
theorem bishopIsIllegal_congr {g h : Game} (same : ∀ x y, (g.get x y).type = (h.get x y).type)
    (m : Move) : bishopIsIllegal g m = bishopIsIllegal h m := by
  simp only [bishopIsIllegal, bishopScan_congr same]

/-- Attackers are read off the types of all squares and the owners of the occupied ones. -/
theorem attacksFrom_congr {g h : Game} (types : ∀ x y, (g.get x y).type = (h.get x y).type)
    (players : ∀ x y, (g.get x y).type ≠ .empty → (g.get x y).player = (h.get x y).player)
    (r c : Int) (player : Player) (s : Int × Int) :
    attacksFrom g r c player s = attacksFrom h r c player s := by
  by_cases empty : (g.get s.1 s.2).type = .empty
  · simp [attacksFrom, ← types, empty]
  · unfold attacksFrom strikes
    simp only [types, players s.1 s.2 empty, rookIsIllegal_congr types,
      bishopIsIllegal_congr types, queenIsIllegal]

/-- A claim hides no attacker and adds none. -/
theorem firstAttacker_claim (g : Game) (r c : Int) (owner : Player) (x y : Int) (player : Player) :
    firstAttacker (claim g r c owner) x y player = firstAttacker g x y player := by
  unfold firstAttacker
  congr 1
  funext s
  exact attacksFrom_congr (claim_type g r c owner)
    (fun u v full => by rw [claim_full (by simpa using full)]) x y player s

/-- A square is struck exactly when the search finds an attacker. -/
theorem struck_iff {g : Game} {r c : Int} {player : Player} :
    Struck g r c player ↔ ∃ i j, firstAttacker g r c player = some (i, j) := by
  rw [← probe_fst]
  unfold probe
  cases firstAttacker g r c player with
  | none => simp
  | some s => exact ⟨fun _ => ⟨s.1, s.2, rfl⟩, fun _ => rfl⟩

/-- A square is safe exactly when the search finds nothing. -/
theorem not_struck_iff {g : Game} {r c : Int} {player : Player} :
    ¬ Struck g r c player ↔ firstAttacker g r c player = none := by
  rw [struck_iff]
  cases firstAttacker g r c player with
  | none => simp
  | some s => exact ⟨fun safe => absurd ⟨s.1, s.2, rfl⟩ safe, fun h => by simp at h⟩

/-! ## Geometry of a pawn move -/

/-- The geometry test of `pawn_is_illegal`: whether the move passes, and which pawn it
takes en passant. -/
def pawnGoes (g : Game) (m : Move) : Option (Option (Int × Int)) :=
  let piece := g.get m.rI m.cI
  let direction := direction piece.player
  if m.cF = m.cI then
    if (g.get (m.rI + direction) m.cI).type ≠ .empty then none
    else if m.rI + direction = m.rF then some none
    else if m.rI + direction * 2 = m.rF ∧
        (g.get (m.rI + direction * 2) m.cI).type = .empty ∧ piece.moves = 0 then some none
    else none
  else if (m.cF - m.cI).natAbs = 1 then
    if m.rI + direction ≠ m.rF then none
    else
      let pessant := g.get m.rI m.cF
      if (g.get m.rF m.cF).type ≠ .empty then some none
      else if pessant.type = .pawn ∧ pessant.player ≠ piece.player ∧ pessant.moves = 1 ∧
          ((piece.player = .white ∧ m.rI = 3) ∨ (piece.player = .black ∧ m.rI = 4)) ∧
          pessant.lastMove = g.duration then
        some (some (m.rI, m.cF))
      else none
  else none

/-- The pawn rule is its geometry test followed by the promotion. -/
theorem pawnIsIllegal_eq (g : Game) (m : Move) :
    pawnIsIllegal g m =
      match pawnGoes g m with
      | none => .plain g illegalMove
      | some captured => promotePawn g m captured := by
  unfold pawnIsIllegal pawnGoes
  dsimp only
  repeat' split
  all_goals simp_all

/-- The four ways a pawn goes. -/
inductive PawnGoes (g : Game) (m : Move) : Option (Int × Int) → Prop
  /-- One row forward to an empty square. -/
  | step (straight : m.cF = m.cI) (row : m.rF = m.rI + direction (g.get m.rI m.cI).player)
      (clear : (g.get m.rF m.cI).type = .empty) : PawnGoes g m none
  /-- Two rows forward over an empty square to another. -/
  | double (straight : m.cF = m.cI)
      (row : m.rF = m.rI + direction (g.get m.rI m.cI).player * 2)
      (clear : (g.get (m.rI + direction (g.get m.rI m.cI).player) m.cI).type = .empty)
      (arrives : (g.get m.rF m.cI).type = .empty) (unmoved : (g.get m.rI m.cI).moves = 0) :
      PawnGoes g m none
  /-- Diagonally onto a piece. -/
  | takes (beside : (m.cF - m.cI).natAbs = 1)
      (row : m.rF = m.rI + direction (g.get m.rI m.cI).player)
      (full : (g.get m.rF m.cF).type ≠ .empty) : PawnGoes g m none
  /-- Diagonally behind a pawn that has just made its first move. -/
  | passing (beside : (m.cF - m.cI).natAbs = 1)
      (row : m.rF = m.rI + direction (g.get m.rI m.cI).player)
      (clear : (g.get m.rF m.cF).type = .empty)
      (pawn : (g.get m.rI m.cF).type = .pawn)
      (foe : (g.get m.rI m.cF).player ≠ (g.get m.rI m.cI).player)
      (once : (g.get m.rI m.cF).moves = 1)
      (rank : ((g.get m.rI m.cI).player = .white ∧ m.rI = 3) ∨
        ((g.get m.rI m.cI).player = .black ∧ m.rI = 4))
      (now : (g.get m.rI m.cF).lastMove = g.duration) : PawnGoes g m (some (m.rI, m.cF))

/-- The geometry test decides the four ways. -/
theorem pawnGoes_iff {g : Game} {m : Move} {captured : Option (Int × Int)} :
    pawnGoes g m = some captured ↔ PawnGoes g m captured := by
  have step := direction_eq (g.get m.rI m.cI).player
  unfold pawnGoes
  dsimp only
  constructor
  · intro goes
    split at goes
    · rename_i straight
      split at goes
      · cases goes
      rename_i clear
      push Not at clear
      split at goes
      · rename_i one
        cases goes
        exact .step straight one.symm (by rw [← one]; exact clear)
      split at goes
      · rename_i two
        cases goes
        exact .double straight two.1.symm clear (by rw [← two.1]; exact two.2.1) two.2.2
      · cases goes
    · split at goes
      · rename_i beside
        split at goes
        · cases goes
        rename_i forward
        push Not at forward
        split at goes
        · rename_i full
          cases goes
          exact .takes beside forward.symm full
        rename_i clear
        push Not at clear
        split at goes
        · rename_i passing
          obtain ⟨pawn, foe, once, rank, now⟩ := passing
          cases goes
          exact .passing beside forward.symm clear pawn foe once rank now
        · cases goes
      · cases goes
  · rintro (⟨straight, row, clear⟩ | ⟨straight, row, clear, arrives, unmoved⟩ |
      ⟨beside, row, full⟩ | ⟨beside, row, clear, pawn, foe, once, rank, now⟩)
    · rw [row] at clear
      rw [if_pos straight, if_neg (not_not.mpr clear), if_pos row.symm]
    · rw [if_pos straight, if_neg (not_not.mpr clear)]
      rw [row] at arrives
      rw [if_neg (by omega), if_pos ⟨row.symm, arrives, unmoved⟩]
    · rw [if_neg (by omega), if_pos beside, if_neg (not_not.mpr row.symm), if_pos full]
    · rw [if_neg (by omega), if_pos beside, if_neg (not_not.mpr row.symm),
        if_neg (not_not.mpr clear), if_pos ⟨pawn, foe, once, rank, now⟩]

/-- The move ends on the last row of the player who moves. -/
def LastRow (g : Game) (m : Move) : Prop :=
  ((g.get m.rI m.cI).player = .white ∧ m.rF = 0) ∨ ((g.get m.rI m.cI).player = .black ∧ m.rF = 7)

instance (g : Game) (m : Move) : Decidable (LastRow g m) :=
  inferInstanceAs (Decidable (_ ∨ _))

/-! ## Geometry of castling -/

/-- The board allows castling in one direction up to the attack tests: an unmoved king, two
columns, and an unmoved rook as the next piece. -/
structure Castling (g : Game) (m : Move) (cc stop : Int) : Prop where
  /-- The direction is one column to either side. -/
  step : cc = 1 ∨ cc = -1
  /-- The king stays in its row. -/
  row : m.rF = m.rI
  /-- The king moves two columns. -/
  two : m.cF = m.cI + cc * 2
  /-- The king has not moved. -/
  unmoved : (g.get m.rI m.cI).moves = 0
  /-- The rook stands on the board, beyond the king. -/
  beyond : 0 ≤ stop ∧ stop < 8 ∧ 0 < (stop - m.cI) * cc
  /-- Nothing stands between them. -/
  path : ∀ x, 0 < (x - m.cI) * cc → 0 < (stop - x) * cc → (g.get m.rI x).type = .empty
  /-- It is a rook. -/
  rook : (g.get m.rI stop).type = .rook
  /-- The rook has not moved. -/
  still : (g.get m.rI stop).moves = 0

/-- The castling search returns the first occupied square it can reach. -/
theorem castleScan_eq {g : Game} {r cc : Int} :
    ∀ (turns : Nat) (c : Int) (k : Nat), k < turns →
      (∀ i : Nat, i < k → 0 ≤ c + i * cc ∧ c + i * cc ≤ 8 ∧ (g.get r (c + i * cc)).type = .empty) →
      (g.get r (c + k * cc)).type ≠ .empty →
      castleScan g r cc turns c = c + k * cc := by
  intro turns
  induction turns with
  | zero => intro c k lt; omega
  | succ turns ih =>
    intro c k lt passed full
    rw [castleScan]
    cases k with
    | zero =>
      have full : (g.get r c).type ≠ .empty := by simpa using full
      rw [if_neg fun h => full h.2.2]
      simp
    | succ k =>
      have here := passed 0 (by omega)
      simp only [Nat.cast_zero, zero_mul, add_zero] at here
      have shift : ∀ i : Nat, c + (i + 1 : Nat) * cc = c + cc + i * cc := by
        intro i
        push_cast
        ring
      rw [if_pos here, ih (c + cc) k (by omega), shift]
      · intro i ilt
        rw [← shift]
        exact passed (i + 1) (by omega)
      · rw [← shift]
        exact full

/-- The castling part of the king rule, up to its attack tests, decides `Castling`. -/
theorem castling_iff {g : Game} {m : Move} (onS : OnBoard m.rI m.cI) {cc stop : Int} :
    Castling g m cc stop ↔
      ((g.get m.rI m.cI).moves = 0 ∧ m.rF - m.rI = 0 ∧ (m.cF - m.cI).natAbs = 2) ∧
      cc = (if m.cF - m.cI < 0 then -1 else 1) ∧ stop = castleScan g m.rI cc 9 (m.cI + cc) ∧
      (0 ≤ stop ∧ stop < 8) ∧ (g.get m.rI stop).type = .rook ∧ (g.get m.rI stop).moves = 0 := by
  have bounds := onS.2
  constructor
  · intro castling
    obtain ⟨low, high, ahead⟩ := castling.beyond
    have step := castling.step
    have two := castling.two
    obtain ⟨k, hk⟩ : ∃ k : Nat, stop = m.cI + cc + k * cc := by
      rcases step with rfl | rfl
      · exact ⟨(stop - m.cI - 1).toNat, by omega⟩
      · exact ⟨(m.cI - 1 - stop).toNat, by omega⟩
    refine ⟨⟨castling.unmoved, by rw [castling.row]; omega, ?_⟩, ?_, ?_, ⟨low, high⟩,
      castling.rook, castling.still⟩
    · rcases step with rfl | rfl <;> omega
    · rcases step with rfl | rfl
      · rw [if_neg (by omega)]
      · rw [if_pos (by omega)]
    · rw [hk]
      refine (castleScan_eq 9 _ k ?_ ?_ ?_).symm
      · rcases step with rfl | rfl <;> omega
      · intro i lt
        refine ⟨?_, ?_, castling.path _ ?_ ?_⟩ <;> rcases step with rfl | rfl <;> omega
      · rw [← hk, castling.rook]
        decide
  · rintro ⟨⟨unmoved, row, two⟩, direction, found, ⟨low, high⟩, rook, still⟩
    obtain ⟨k, -, stopped, passed, -⟩ := castleScan_stops g m.rI cc 9 (m.cI + cc)
    rw [← found] at stopped
    have step : cc = 1 ∨ cc = -1 := by
      rw [direction]
      split <;> simp
    refine ⟨step, by omega, ?_, unmoved, ⟨low, high, ?_⟩, ?_, rook, still⟩
    · rw [direction]
      split <;> omega
    · rcases step with rfl | rfl <;> omega
    · intro x after before
      obtain ⟨i, hi⟩ : ∃ i : Nat, x = m.cI + cc + i * cc := by
        rcases step with rfl | rfl
        · exact ⟨(x - m.cI - 1).toNat, by omega⟩
        · exact ⟨(m.cI - 1 - x).toNat, by omega⟩
      rw [hi]
      apply passed
      rcases step with rfl | rfl <;> omega

/-- The board after the attack tests of castling found an attacked square. -/
inductive Stopped (g : Game) (r c cc : Int) (player : Player) : Game → Prop
  /-- The king itself is attacked. -/
  | first {i j : Int} (hit : firstAttacker g r c player = some (i, j)) :
      Stopped g r c cc player (promoteAttacker g i j r)
  /-- The square the king passes is the first one attacked. -/
  | second {i j : Int} (safe : ¬ Struck g r c player)
      (hit : firstAttacker g r (c + cc) player = some (i, j)) :
      Stopped g r c cc player (promoteAttacker (claim g r (c + cc) player) i j r)
  /-- Only the square the king reaches is attacked. -/
  | third {i j : Int} (safe : ¬ Struck g r c player) (passing : ¬ Struck g r (c + cc) player)
      (hit : firstAttacker g r (c + cc * 2) player = some (i, j)) :
      Stopped g r c cc player
        (promoteAttacker (claim (claim g r (c + cc) player) r (c + cc * 2) player) i j r)

/-! ## The verdict -/

/-- The checks `is_illegal` makes before it asks a piece rule. -/
structure Mine (g : Game) (m : Move) (player : Player) : Prop where
  /-- The initial square is on the board. -/
  onS : OnBoard m.rI m.cI
  /-- The final square is on the board. -/
  onT : OnBoard m.rF m.cF
  /-- Something stands on the initial square. -/
  full : (g.get m.rI m.cI).type ≠ .empty
  /-- It belongs to the player. -/
  owner : (g.get m.rI m.cI).player = player
  /-- The final square holds none of the player's pieces. -/
  free : (g.get m.rF m.cF).type = .empty ∨ (g.get m.rF m.cF).player ≠ player

/-- A move that passes these checks goes somewhere. -/
theorem Mine.away {g : Game} {m : Move} {player : Player} (mine : Mine g m player) :
    m.rI ≠ m.rF ∨ m.cI ≠ m.cF := by
  by_contra still
  push Not at still
  have full := mine.full
  have owner := mine.owner
  rw [still.1, still.2] at full owner
  exact mine.free.elim full fun other => other owner

/-- The move passes the checks and the geometry of its piece. -/
def Passes (g : Game) (m : Move) (player : Player) : Prop :=
  Mine g m player ∧
    (((g.get m.rI m.cI).type ≠ .pawn ∧ strikes g m.rI m.cI m.rF m.cF = true) ∨
      ((g.get m.rI m.cI).type = .pawn ∧ ∃ captured, pawnGoes g m = some captured) ∨
      ((g.get m.rI m.cI).type = .king ∧ ∃ cc stop, Castling g m cc stop))

/-- Every outcome of `is_illegal`. -/
inductive Judged (g : Game) (m : Move) (player : Player) : Verdict → Prop
  /-- Refused with nothing written. -/
  | refused (fails : ¬ Passes g m player) : Judged g m player (.plain g illegalMove)
  /-- A piece other than a pawn goes where it strikes. -/
  | officer (mine : Mine g m player) (kind : (g.get m.rI m.cI).type ≠ .pawn)
      (hit : strikes g m.rI m.cI m.rF m.cF = true) : Judged g m player (.plain g 0)
  /-- A pawn goes to a square before its last row. -/
  | pawn {captured} (mine : Mine g m player) (kind : (g.get m.rI m.cI).type = .pawn)
      (goes : pawnGoes g m = some captured) (early : ¬ LastRow g m) :
      Judged g m player ⟨0, g, captured, noCastle⟩
  /-- A pawn reaches its last row; its new type is already on the board. -/
  | promoted {captured} (mine : Mine g m player) (kind : (g.get m.rI m.cI).type = .pawn)
      (goes : pawnGoes g m = some captured) (last : LastRow g m)
      (named : m.promotion.isPromotion = true) :
      Judged g m player ⟨0, g.setType m.rI m.cI m.promotion, captured, noCastle⟩
  /-- A pawn would reach its last row, but the move names no promotion. -/
  | unpromoted {captured} (mine : Mine g m player) (kind : (g.get m.rI m.cI).type = .pawn)
      (goes : pawnGoes g m = some captured) (last : LastRow g m)
      (unnamed : m.promotion.isPromotion = false) :
      Judged g m player ⟨missingPromotion, g, captured, noCastle⟩
  /-- The king castles; the squares beside it changed owner. -/
  | castled {cc stop} (mine : Mine g m player) (kind : (g.get m.rI m.cI).type = .king)
      (castling : Castling g m cc stop) (empty : (g.get m.rF m.cF).type = .empty)
      (safe : ¬ Struck g m.rI m.cI player) (passing : ¬ Struck g m.rI (m.cI + cc) player)
      (arriving : ¬ Struck g m.rI (m.cI + cc * 2) player) :
      Judged g m player
        ⟨0, claim (claim g m.rI (m.cI + cc) player) m.rI (m.cI + cc * 2) player, none,
          ⟨m.rI, stop, m.rI, m.cI + cc, .empty⟩⟩
  /-- Castling is refused because a square is attacked. -/
  | stopped {cc stop after} (mine : Mine g m player) (kind : (g.get m.rI m.cI).type = .king)
      (castling : Castling g m cc stop) (stop : Stopped g m.rI m.cI cc player after) :
      Judged g m player (.plain after illegalMove)

/-- The square a castling king passes is empty: the rook is in a corner and the king does
not leave the board. -/
theorem Castling.passing_empty {g : Game} {m : Move} {cc stop : Int} (home : RooksHome g)
    (castling : Castling g m cc stop) (onS : OnBoard m.rI m.cI) (onT : OnBoard m.rF m.cF) :
    (g.get m.rI (m.cI + cc)).type = .empty := by
  have corner := (home _ _ castling.rook castling.still).1
  obtain ⟨low, high, ahead⟩ := castling.beyond
  have two := castling.two
  have start := onS.2
  have bounds := onT.2
  apply castling.path <;> rcases castling.step with rfl | rfl <;> omega

/-- A castling king that is not attacked reaches an empty square: the only piece that could
stand there is the other player's rook, and it would attack the king. -/
theorem Castling.arriving_empty {g : Game} {m : Move} {cc stop : Int} {player : Player}
    (home : RooksHome g) (known : player = .white ∨ player = .black) (mine : Mine g m player)
    (castling : Castling g m cc stop) (safe : ¬ Struck g m.rI m.cI player) :
    (g.get m.rF m.cF).type = .empty := by
  by_contra full
  have corner := home _ _ castling.rook castling.still
  obtain ⟨low, high, ahead⟩ := castling.beyond
  have two := castling.two
  have start := mine.onS.2
  have bounds := mine.onT.2
  have passing := castling.passing_empty home mine.onS mine.onT
  have here : stop = m.cF := by
    by_contra elsewhere
    apply full
    rw [castling.row]
    apply castling.path <;> rcases castling.step with rfl | rfl <;> omega
  have foe : (g.get m.rF m.cF).player = otherPlayer player := by
    have other := mine.free.resolve_left full
    have owner := corner.2
    rw [here, ← castling.row] at owner
    rcases known with rfl | rfl <;> rcases owner with ⟨-, h⟩ | ⟨-, h⟩ <;> rw [h] at other ⊢
    · rfl
    · exact absurd rfl other
    · exact absurd rfl other
    · rfl
  refine safe ⟨m.rF, m.cF, mine.onT, ?_⟩
  have type : (g.get m.rF m.cF).type = .rook := by
    rw [castling.row, ← here]
    exact castling.rook
  have line : 0 ≤ rookIsIllegal g ⟨m.rF, m.cF, m.rI, m.cI, .queen⟩ := by
    rw [rookIsIllegal_nonneg]
    refine ⟨Or.inl castling.row, fun i low' high' => ?_, fun i low' high' => ?_⟩
    · dsimp only at low' high'
      have := castling.row
      omega
    · dsimp only at low' high' ⊢
      have middle : i = m.cI + cc := by rcases castling.step with rfl | rfl <;> omega
      rw [middle, castling.row]
      exact passing
  simp [attacksFrom, strikes, type, foe, line]

/-- A claim moves no rook. -/
theorem RooksCornered.claim {g : Game} (cornered : RooksCornered g) (r c : Int) (player : Player) :
    RooksCornered (claim g r c player) := by
  intro x y rook unmoved
  rw [claim_type] at rook
  rw [claim_moves] at unmoved
  exact cornered x y rook unmoved

/-- The three attack tests of castling. -/
theorem anyAttacked_eq {g : Game} {m : Move} {cc stop : Int} {player : Player}
    (home : RooksHome g) (known : player = .white ∨ player = .black) (mine : Mine g m player)
    (kind : (g.get m.rI m.cI).type = .king) (castling : Castling g m cc stop) :
    ∃ hit after, (∀ depth, anyAttacked (pieceIsAttacked (depth + 1)) m.rI m.cI
        [(m.rI, m.cI), (m.rI, m.cI + cc), (m.rI, m.cI + cc * 2)] g = some (hit, after)) ∧
      if hit then Stopped g m.rI m.cI cc player after
      else (¬ Struck g m.rI m.cI player ∧ ¬ Struck g m.rI (m.cI + cc) player ∧
        ¬ Struck g m.rI (m.cI + cc * 2) player ∧
        after = claim (claim g m.rI (m.cI + cc) player) m.rI (m.cI + cc * 2) player) := by
  have bounds := mine.onT
  rw [castling.row, castling.two] at bounds
  have row : 0 ≤ m.rI ∧ m.rI < 8 := mine.onS.1
  have passing := castling.passing_empty home mine.onS mine.onT
  have owner := mine.owner
  have onMid : OnBoard m.rI (m.cI + cc) :=
    ⟨row, by have := mine.onS.2; have := bounds.2; rcases castling.step with rfl | rfl <;> omega⟩
  have test₀ := fun depth =>
    pieceIsAttacked_eq depth home.cornered mine.onS (Or.inr owner) (by simp [kind])
  simp only [anyAttacked, owner, test₀, Option.bind_some]
  cases found₀ : firstAttacker g m.rI m.cI player with
  | some s =>
    refine ⟨true, _, ?_, Stopped.first found₀⟩
    simp [probe, found₀,
      claim_occupied player (by rw [kind]; decide : (g.get m.rI m.cI).type ≠ .empty)]
  | none =>
    have safe := not_struck_iff.mpr found₀
    have kept : probe g m.rI m.cI player = (false, g) := by
      simp [probe, found₀,
        claim_occupied player (by rw [kind]; decide : (g.get m.rI m.cI).type ≠ .empty)]
    have test₁ : ∀ depth, pieceIsAttacked (depth + 1) g m.rI (m.cI + cc) player =
        some (probe g m.rI (m.cI + cc) player) := fun depth =>
      pieceIsAttacked_eq depth home.cornered onMid (Or.inl passing) (by simp [passing])
    simp only [kept, Bool.false_eq_true, ↓reduceIte, owner, test₁, Option.bind_some]
    cases found₁ : firstAttacker g m.rI (m.cI + cc) player with
    | some s =>
      exact ⟨true, _, by simp [probe, found₁], Stopped.second safe found₁⟩
    | none =>
      have moved : probe g m.rI (m.cI + cc) player =
          (false, claim g m.rI (m.cI + cc) player) := by simp [probe, found₁]
      have arriving := castling.arriving_empty home known mine safe
      rw [castling.row, castling.two] at arriving
      have test₂ : ∀ depth, pieceIsAttacked (depth + 1) (claim g m.rI (m.cI + cc) player) m.rI
          (m.cI + cc * 2) player =
          some (probe (claim g m.rI (m.cI + cc) player) m.rI (m.cI + cc * 2) player) :=
        fun depth => pieceIsAttacked_eq depth (home.cornered.claim _ _ _) bounds
          (Or.inl (by rw [claim_type]; exact arriving)) (by simp [arriving])
      have ownerKept : ((claim g m.rI (m.cI + cc) player).get m.rI m.cI).player = player := by
        rw [claim_full mine.full, owner]
      simp only [moved, Bool.false_eq_true, ↓reduceIte, ownerKept, test₂, Option.bind_some]
      cases found₂ : firstAttacker g m.rI (m.cI + cc * 2) player with
      | some s =>
        refine ⟨true, _, ?_, Stopped.third safe (not_struck_iff.mpr found₁) found₂⟩
        simp [probe, firstAttacker_claim, found₂]
      | none =>
        refine ⟨false, _, ?_, safe, not_struck_iff.mpr found₁, not_struck_iff.mpr found₂, rfl⟩
        simp [probe, firstAttacker_claim, found₂]

section King

variable (attacked : Game → Int → Int → Player → Option (Bool × Game)) {g : Game} {m : Move}

/-- The king rule accepts an adjacent square at once. -/
theorem kingIsIllegal_near (near : (m.rF - m.rI).natAbs ≤ 1 ∧ (m.cF - m.cI).natAbs ≤ 1) :
    kingIsIllegal attacked g m = some (.plain g 0) :=
  if_pos near

/-- The king rule refuses at once where the board does not allow castling. -/
theorem kingIsIllegal_far (onS : OnBoard m.rI m.cI)
    (far : ¬ ((m.rF - m.rI).natAbs ≤ 1 ∧ (m.cF - m.cI).natAbs ≤ 1))
    (never : ∀ cc stop, ¬ Castling g m cc stop) :
    kingIsIllegal attacked g m = some (.plain g illegalMove) := by
  unfold kingIsIllegal
  dsimp only
  rw [if_neg far]
  by_cases shape : (g.get m.rI m.cI).moves = 0 ∧ m.rF - m.rI = 0 ∧ (m.cF - m.cI).natAbs = 2
  swap
  · exact if_pos (by by_contra h; push Not at h; exact shape h)
  rw [if_neg (by push Not; exact shape)]
  generalize hcc : (if m.cF - m.cI < 0 then (-1 : Int) else 1) = cc
  generalize hstop : castleScan g m.rI cc 9 (m.cI + cc) = stop
  by_cases off : stop < 0 ∨ 8 ≤ stop
  · exact if_pos off
  rw [if_neg off]
  by_cases rook : (g.get m.rI stop).type = .rook
  swap
  · exact if_pos rook
  rw [if_neg (not_not.mpr rook)]
  by_cases still : (g.get m.rI stop).moves = 0
  swap
  · exact if_pos still
  exact absurd ((castling_iff onS).mpr ⟨shape, hcc.symm, hstop.symm, by omega, rook, still⟩)
    (never cc stop)

/-- Where the board allows castling the king rule runs its attack tests. -/
theorem kingIsIllegal_castling (onS : OnBoard m.rI m.cI) {cc stop : Int}
    (castling : Castling g m cc stop) :
    kingIsIllegal attacked g m =
      (anyAttacked attacked m.rI m.cI
        [(m.rI, m.cI), (m.rI, m.cI + cc), (m.rI, m.cI + cc * 2)] g).bind fun (hit, g) =>
          if hit then some (.plain g illegalMove)
          else some ⟨0, g, none, ⟨m.rI, stop, m.rI, m.cI + cc, .empty⟩⟩ := by
  obtain ⟨⟨unmoved, row, two⟩, direction, found, on, rook, still⟩ := (castling_iff onS).mp castling
  have far : ¬ ((m.rF - m.rI).natAbs ≤ 1 ∧ (m.cF - m.cI).natAbs ≤ 1) := by omega
  unfold kingIsIllegal
  dsimp only
  rw [if_neg far, if_neg (by push Not; exact ⟨unmoved, row, two⟩), ← direction, ← found,
    if_neg (by omega), if_neg (not_not.mpr rook), if_neg (not_not.mpr still)]

end King

/-- The king rule, at a square the player may move to. -/
theorem kingIsIllegal_judged {g : Game} {m : Move} {player : Player}
    (home : RooksHome g) (known : player = .white ∨ player = .black) (mine : Mine g m player)
    (kind : (g.get m.rI m.cI).type = .king) :
    ∃ v, (∀ depth, kingIsIllegal (pieceIsAttacked (depth + 1)) g m = some v) ∧
      Judged g m player v := by
  by_cases near : (m.rF - m.rI).natAbs ≤ 1 ∧ (m.cF - m.cI).natAbs ≤ 1
  · exact ⟨_, fun depth => kingIsIllegal_near _ near,
      .officer mine (by simp [kind]) (by simp [strikes, kind, near])⟩
  by_cases allowed : ∃ cc stop, Castling g m cc stop
  · obtain ⟨cc, stop, castling⟩ := allowed
    obtain ⟨hit, after, tests, outcome⟩ := anyAttacked_eq home known mine kind castling
    have asked :=
      fun depth => kingIsIllegal_castling (pieceIsAttacked (depth + 1)) mine.onS castling
    simp only [tests, Option.bind_some] at asked
    cases hit with
    | true => exact ⟨_, asked, .stopped mine kind castling outcome⟩
    | false =>
      obtain ⟨safe, passing, arriving, rfl⟩ := outcome
      exact ⟨_, asked, .castled mine kind castling (castling.arriving_empty home known mine safe)
        safe passing arriving⟩
  · refine ⟨_, fun depth => kingIsIllegal_far _ mine.onS near
      (fun cc stop castling => allowed ⟨cc, stop, castling⟩), .refused ?_⟩
    rintro ⟨-, ⟨-, hit⟩ | ⟨pawn, -⟩ | ⟨-, castling⟩⟩
    · simp [strikes, kind, near] at hit
    · rw [kind] at pawn
      exact PieceType.noConfusion pawn
    · exact allowed castling

/-- The pawn rule, at a square the player may move to. -/
theorem pawnIsIllegal_judged {g : Game} {m : Move} {player : Player} (mine : Mine g m player)
    (kind : (g.get m.rI m.cI).type = .pawn) : Judged g m player (pawnIsIllegal g m) := by
  rw [pawnIsIllegal_eq]
  cases goes : pawnGoes g m with
  | none =>
    refine .refused ?_
    rintro ⟨-, ⟨officer, -⟩ | ⟨-, captured, passes⟩ | ⟨king, -⟩⟩
    · exact officer kind
    · simp [goes] at passes
    · rw [kind] at king
      exact PieceType.noConfusion king
  | some captured =>
    dsimp only
    unfold promotePawn
    dsimp only
    by_cases last : LastRow g m
    · rw [if_pos (show (_ ∧ _ ∨ _ ∧ _) from last)]
      split
      · rename_i named
        exact .promoted mine kind goes last named
      · rename_i unnamed
        exact .unpromoted mine kind goes last (by simpa using unnamed)
    · rw [if_neg (show ¬ (_ ∧ _ ∨ _ ∧ _) from last)]
      exact .pawn mine kind goes last

/-- `is_illegal` refuses a move that fails its first checks. -/
theorem isIllegalWith_foreign (attacked : Game → Int → Int → Player → Option (Bool × Game))
    {g : Game} {m : Move} {player : Player} (foreign : ¬ Mine g m player) :
    isIllegalWith attacked g m player = some (.plain g illegalMove) := by
  unfold isIllegalWith
  by_cases on : ¬ OnBoard m.rI m.cI ∨ ¬ OnBoard m.rF m.cF
  · exact if_pos on
  rw [if_neg on]
  push Not at on
  dsimp only
  by_cases other : (g.get m.rI m.cI).type = .empty ∨ (g.get m.rI m.cI).player ≠ player
  · exact if_pos other
  rw [if_neg other]
  push Not at other
  apply if_pos
  by_contra open_
  refine foreign ⟨on.1, on.2, other.1, other.2, ?_⟩
  by_contra taken
  push Not at taken
  exact open_ ⟨taken.1, by rw [taken.2, other.2]⟩

/-- Past its first checks `is_illegal` asks the rule of the piece. -/
theorem isIllegalWith_mine (attacked : Game → Int → Int → Player → Option (Bool × Game))
    {g : Game} {m : Move} {player : Player} (mine : Mine g m player) :
    isIllegalWith attacked g m player =
      match (g.get m.rI m.cI).type with
      | .rook => some (.plain g (rookIsIllegal g m))
      | .knight => some (.plain g (knightIsIllegal m))
      | .bishop => some (.plain g (bishopIsIllegal g m))
      | .queen => some (.plain g (queenIsIllegal g m))
      | .king => kingIsIllegal attacked g m
      | .pawn => some (pawnIsIllegal g m)
      | .empty | .other _ => some (.plain g illegalMove) := by
  have on : ¬ (¬ OnBoard m.rI m.cI ∨ ¬ OnBoard m.rF m.cF) :=
    fun off => off.elim (· mine.onS) (· mine.onT)
  have own : ¬ ((g.get m.rI m.cI).type = .empty ∨ (g.get m.rI m.cI).player ≠ player) :=
    fun other => other.elim mine.full (· mine.owner)
  have open_ : ¬ ((g.get m.rF m.cF).type ≠ .empty ∧
      (g.get m.rF m.cF).player = (g.get m.rI m.cI).player) := by
    rw [mine.owner]
    exact fun taken => mine.free.elim taken.1 (· taken.2)
  unfold isIllegalWith
  dsimp only
  refine (if_neg on).trans ((if_neg own).trans ((if_neg open_).trans ?_))
  cases (g.get m.rI m.cI).type <;> rfl

/-- `is_illegal` ends in a listed outcome, with one activation of the attack test. -/
theorem isIllegal_judged {g : Game} (home : RooksHome g) (m : Move) {player : Player}
    (known : player = .white ∨ player = .black) :
    ∃ v, (∀ depth, isIllegal (depth + 1) g m player = some v) ∧ Judged g m player v := by
  unfold isIllegal
  by_cases mine : Mine g m player
  swap
  · exact ⟨_, fun depth => isIllegalWith_foreign _ mine, .refused fun passes => mine passes.1⟩
  simp only [isIllegalWith_mine _ mine]
  have officer : ∀ code, (code = 0 ∨ code = illegalMove) → (g.get m.rI m.cI).type ≠ .pawn →
      (g.get m.rI m.cI).type ≠ .king →
      (0 ≤ code ↔ strikes g m.rI m.cI m.rF m.cF = true) → Judged g m player (.plain g code) := by
    intro code values notPawn notKing accepts
    rcases values with rfl | rfl
    · exact .officer mine notPawn (accepts.mp le_rfl)
    · refine .refused ?_
      rintro ⟨-, ⟨-, hit⟩ | ⟨pawn, -⟩ | ⟨king, -⟩⟩
      · exact absurd (accepts.mpr hit) (by decide)
      · exact notPawn pawn
      · exact notKing king
  cases type : (g.get m.rI m.cI).type with
  | empty => exact absurd type mine.full
  | other raw =>
    refine ⟨_, fun _ => rfl, officer _ (Or.inr rfl) (by simp [type]) (by simp [type]) ?_⟩
    simp [strikes, type, illegalMove]
  | rook =>
    exact ⟨_, fun _ => rfl, officer _ (rookIsIllegal_code g m) (by simp [type]) (by simp [type])
      (by simp [strikes, type]; rfl)⟩
  | knight =>
    exact ⟨_, fun _ => rfl, officer _ (knightIsIllegal_code m) (by simp [type]) (by simp [type])
      (by simp [strikes, type]; rfl)⟩
  | bishop =>
    exact ⟨_, fun _ => rfl, officer _ (bishopIsIllegal_code g m) (by simp [type]) (by simp [type])
      (by simp [strikes, type]; rfl)⟩
  | queen =>
    exact ⟨_, fun _ => rfl, officer _ (queenIsIllegal_code g m) (by simp [type]) (by simp [type])
      (by simp [strikes, type]; rfl)⟩
  | king => exact kingIsIllegal_judged home known mine type
  | pawn => exact ⟨_, fun _ => rfl, pawnIsIllegal_judged mine type⟩

end Chessh
