import Chessh.Verif.Effect

/-!
# Games that look alike

The engine decides by what stands on the occupied squares. `Image` relates two games that
differ only in what it never looks at, seen from the same side of the board or from the two
opposite ones; in the second case the clocks are shifted by an odd number of turns, so that the
other player is to move. Every rule, every attack test and every call gives the same answer on
both.
-/

namespace Chessh

/-! ## The other side of the board -/

/-- A row, counted from the same side of the board or from the opposite one. -/
def turnRow (flip : Bool) (r : Int) : Int := if flip then 7 - r else r

/-- A square, seen from either side. -/
def turnSquare (flip : Bool) (s : Int × Int) : Int × Int := (turnRow flip s.1, s.2)

/-- A player, with the colours kept or exchanged. -/
def turnPlayer (flip : Bool) (p : Player) : Player := if flip then otherPlayer p else p

/-- A move, seen from either side. -/
def Move.turned (flip : Bool) (m : Move) : Move :=
  { m with rI := turnRow flip m.rI, rF := turnRow flip m.rF }

/-- A code, with the winners kept or exchanged. -/
def turnCode (flip : Bool) (code : Int) : Int :=
  if flip then if code = whiteWin then blackWin else if code = blackWin then whiteWin else code
  else code

/-- Only the code of a win depends on the side. -/
theorem turnCode_same {flip : Bool} {code : Int} (white : code ≠ whiteWin)
    (black : code ≠ blackWin) : turnCode flip code = code := by
  unfold turnCode
  rw [if_neg white, if_neg black, ite_self]

/-- The player is one of the two. -/
def Player.Known (p : Player) : Prop := p = .white ∨ p = .black

section Turn

variable {flip : Bool} {r r' c : Int} {p q : Player}

/-- Turning twice changes nothing. -/
@[simp] theorem turnRow_turnRow (flip : Bool) (r : Int) : turnRow flip (turnRow flip r) = r := by
  cases flip
  · rfl
  · show 7 - (7 - r) = r
    omega

/-- Different rows stay different. -/
@[simp] theorem turnRow_inj : turnRow flip r = turnRow flip r' ↔ r = r' := by
  cases flip
  · exact Iff.rfl
  · show 7 - r = 7 - r' ↔ r = r'
    omega

/-- The board stays the board. -/
@[simp] theorem onBoard_turnRow : OnBoard (turnRow flip r) c ↔ OnBoard r c := by
  cases flip
  · exact Iff.rfl
  · show ((0 ≤ 7 - r ∧ 7 - r < 8) ∧ 0 ≤ c ∧ c < 8) ↔ (0 ≤ r ∧ r < 8) ∧ 0 ≤ c ∧ c < 8
    omega

/-- Distances between rows stay the same. -/
@[simp] theorem turnRow_distance :
    (turnRow flip r - turnRow flip r').natAbs = (r - r').natAbs := by
  cases flip
  · rfl
  · show (7 - r - (7 - r')).natAbs = (r - r').natAbs
    omega

/-- A row strictly between two others stays between them. -/
theorem turnRow_between {i : Int}
    (low : min (turnRow flip r) (turnRow flip r') < i)
    (high : i < max (turnRow flip r) (turnRow flip r')) :
    min r r' < turnRow flip i ∧ turnRow flip i < max r r' := by
  cases flip
  · exact ⟨low, high⟩
  · have low : min (7 - r) (7 - r') < i := low
    have high : i < max (7 - r) (7 - r') := high
    show min r r' < 7 - i ∧ 7 - i < max r r'
    omega

/-- Exchanging the colours twice changes nothing. -/
theorem turnPlayer_turnPlayer (known : p.Known) : turnPlayer flip (turnPlayer flip p) = p := by
  cases flip
  · rfl
  · rcases known with rfl | rfl <;> rfl

/-- Two players stay the same or different. -/
theorem turnPlayer_inj (known : p.Known) (known' : q.Known) :
    turnPlayer flip p = turnPlayer flip q ↔ p = q := by
  cases flip
  · exact Iff.rfl
  · rcases known with rfl | rfl <;> rcases known' with rfl | rfl <;> decide

/-- The two players stay the two players. -/
theorem Player.Known.turned (known : p.Known) : (turnPlayer flip p).Known := by
  cases flip
  · exact known
  · exact known.elim (fun h => Or.inr (by rw [h]; rfl)) fun h => Or.inl (by rw [h]; rfl)

/-- The opponent of a player is one of the two. -/
theorem Player.Known.other (known : p.Known) : (otherPlayer p).Known := by
  rcases known with rfl | rfl
  · exact Or.inr rfl
  · exact Or.inl rfl

/-- The opponent of the exchanged player. -/
theorem turnPlayer_other (known : p.Known) :
    turnPlayer flip (otherPlayer p) = otherPlayer (turnPlayer flip p) := by
  cases flip
  · rfl
  · rcases known with rfl | rfl <;> rfl

/-- Pawns advance the other way when the board is turned. -/
theorem turnRow_direction (flip : Bool) (known : p.Known) (r k : Int) :
    turnRow flip (r + direction p * k) = turnRow flip r + direction (turnPlayer flip p) * k := by
  cases flip
  · rfl
  · rcases known with rfl | rfl
    · show 7 - (r + -1 * k) = 7 - r + 1 * k
      ring
    · show 7 - (r + 1 * k) = 7 - r + -1 * k
      ring

/-- A row ahead of a pawn. -/
theorem turnRow_ahead (flip : Bool) (known : p.Known) (r : Int) :
    turnRow flip (r + direction p) = turnRow flip r + direction (turnPlayer flip p) := by
  have ahead := turnRow_direction flip known r 1
  rwa [mul_one, mul_one] at ahead

/-- A row of one player is the row of the other one, counted from the other side. -/
theorem turned_row_iff (flip : Bool) (known : p.Known) (white black : Int)
    (mirrored : white + black = 7) :
    (turnPlayer flip p = .white ∧ turnRow flip r = white) ∨
        (turnPlayer flip p = .black ∧ turnRow flip r = black) ↔
      (p = .white ∧ r = white) ∨ (p = .black ∧ r = black) := by
  cases flip
  · exact Iff.rfl
  · rcases known with rfl | rfl
    · have other : turnPlayer true .white = .black := rfl
      have row : turnRow true r = 7 - r := rfl
      simp only [other, row, reduceCtorEq, false_and, false_or, true_and, or_false]
      omega
    · have other : turnPlayer true .black = .white := rfl
      have row : turnRow true r = 7 - r := rfl
      simp only [other, row, reduceCtorEq, false_and, false_or, true_and, or_false]
      omega

end Turn

/-! ## The relation -/

/-- What stands on a square, as far as the engine looks at it. -/
structure Counterpart (flip : Bool) (shift : Int) (p q : Piece) : Prop where
  /-- The types are the same. -/
  type : q.type = p.type
  /-- An occupied square has an owner. -/
  known : p.type ≠ .empty → p.player.Known
  /-- The owners correspond. -/
  owner : p.type ≠ .empty → q.player = turnPlayer flip p.player
  /-- The pieces have moved equally often. -/
  moves : p.type ≠ .empty → q.moves = p.moves
  /-- Pieces that have moved did so at corresponding times. -/
  last : p.type ≠ .empty → p.moves ≠ 0 → q.lastMove = p.lastMove + shift

/-- Two games that the engine cannot tell apart, up to the side they are seen from. -/
structure Image (flip : Bool) (shift : Int) (g h : Game) : Prop where
  /-- The shift of the clocks gives the turn to the corresponding player. -/
  parity : shift % 2 = if flip then 1 else 0
  /-- The squares correspond. -/
  square : ∀ r c, Counterpart flip shift (g.get r c) (h.get (turnRow flip r) c)
  /-- The numbers of turns correspond. -/
  duration : h.duration = g.duration + shift
  /-- The times of the last big move correspond. -/
  big : h.lastBigMove = g.lastBigMove + shift

/-- Empty squares correspond. -/
theorem Counterpart.empty {flip : Bool} {shift : Int} {p q : Piece} (free : p.type = .empty)
    (free' : q.type = .empty) : Counterpart flip shift p q :=
  ⟨free'.trans free.symm, fun full => absurd free full, fun full => absurd free full,
    fun full => absurd free full, fun full => absurd free full⟩

/-- Correspondence of squares is symmetric. -/
theorem Counterpart.symm {flip : Bool} {shift : Int} {p q : Piece}
    (same : Counterpart flip shift p q) : Counterpart flip (-shift) q p := by
  by_cases free : p.type = .empty
  · exact .empty (same.type.trans free) free
  have known := same.known free
  have owner := same.owner free
  have moves := same.moves free
  refine ⟨same.type.symm, fun _ => ?_, fun _ => ?_, fun _ => moves.symm, fun _ moved => ?_⟩
  · rw [owner]
    exact known.turned
  · rw [owner, turnPlayer_turnPlayer known]
  · have last := same.last free (by rwa [moves] at moved)
    omega

section Image

variable {flip : Bool} {shift : Int} {g h : Game}

/-- Looking alike is symmetric. -/
theorem Image.symm (image : Image flip shift g h) : Image flip (-shift) h g where
  parity := by
    have parity := image.parity
    cases flip <;> simp only [Bool.false_eq_true, ↓reduceIte] at parity ⊢ <;> omega
  square r c := by
    have same := (image.square (turnRow flip r) c).symm
    rwa [turnRow_turnRow] at same
  duration := by
    have time := image.duration
    omega
  big := by
    have time := image.big
    omega

/-- The types on corresponding squares. -/
theorem Image.type (image : Image flip shift g h) (r c : Int) :
    (h.get (turnRow flip r) c).type = (g.get r c).type :=
  (image.square r c).type

/-- Corresponding players are to move. -/
theorem Image.toMove (image : Image flip shift g h) :
    getPlayer h = turnPlayer flip (getPlayer g) := by
  have parity := image.parity
  have time := image.duration
  unfold getPlayer
  rw [time]
  cases flip with
  | false =>
    have same : (g.duration + shift) % 2 = g.duration % 2 := by
      simp only [Bool.false_eq_true, ↓reduceIte] at parity
      omega
    rw [same]
    rfl
  | true =>
    simp only [↓reduceIte] at parity
    by_cases even : g.duration % 2 = 0
    · rw [if_pos even, if_neg (by omega)]
      rfl
    · rw [if_neg even, if_pos (by omega)]
      rfl

/-! ## The piece rules -/

/-- Two codes that are zero or `ILLEGAL_MOVE` are the same when both accept. -/
theorem code_ext {code code' : Int} (values : code = 0 ∨ code = illegalMove)
    (values' : code' = 0 ∨ code' = illegalMove) (accepts : 0 ≤ code' ↔ 0 ≤ code) :
    code' = code := by
  unfold illegalMove at values values'
  omega

/-- The straight rule accepts what it accepts from the other side. -/
theorem Image.rook_nonneg (image : Image flip shift g h) {m : Move}
    (accepts : 0 ≤ rookIsIllegal g m) : 0 ≤ rookIsIllegal h (m.turned flip) := by
  obtain ⟨line, rows, columns⟩ := (rookIsIllegal_nonneg g m).mp accepts
  refine (rookIsIllegal_nonneg h (m.turned flip)).mpr ⟨?_, fun i low high => ?_,
    fun i low high => ?_⟩
  · exact line.imp_left fun same => congrArg (turnRow flip) same
  · have between := turnRow_between low high
    have clear := image.type (turnRow flip i) m.cI
    rw [turnRow_turnRow] at clear
    exact clear.trans (rows _ between.1 between.2)
  · exact (image.type m.rI i).trans (columns i low high)

/-- The straight rule. -/
theorem Image.rook (image : Image flip shift g h) (m : Move) :
    rookIsIllegal h (m.turned flip) = rookIsIllegal g m := by
  refine code_ext (rookIsIllegal_code g m) (rookIsIllegal_code h _) ⟨fun accepts => ?_, ?_⟩
  · have back := image.symm.rook_nonneg accepts
    simpa only [Move.turned, turnRow_turnRow] using back
  · exact image.rook_nonneg

/-- The jump rule. -/
theorem knightIsIllegal_turned (m : Move) :
    knightIsIllegal (m.turned flip) = knightIsIllegal m := by
  unfold knightIsIllegal
  simp only [Move.turned, turnRow_distance]

/-- A step along a diagonal, seen from the other side. -/
theorem turned_step (m : Move) (k : Int) (away : m.rI ≠ m.rF) :
    turnRow flip (m.rI + k * (if m.rF - m.rI < 0 then -1 else 1)) =
      (m.turned flip).rI +
        k * (if (m.turned flip).rF - (m.turned flip).rI < 0 then -1 else 1) := by
  cases flip
  · rfl
  · show 7 - (m.rI + k * (if m.rF - m.rI < 0 then -1 else 1)) =
      7 - m.rI + k * (if 7 - m.rF - (7 - m.rI) < 0 then -1 else 1)
    by_cases down : m.rF - m.rI < 0
    · rw [if_pos down, if_neg (by omega)]
      ring
    · rw [if_neg down, if_pos (by omega)]
      ring

/-- Distances between rows stay the same. -/
theorem turned_distance (m : Move) :
    ((m.turned flip).rF - (m.turned flip).rI).natAbs = (m.rF - m.rI).natAbs :=
  turnRow_distance

/-- The diagonal rule accepts what it accepts from the other side. -/
theorem Image.bishop_nonneg (image : Image flip shift g h) {m : Move}
    (moved : m.rI ≠ m.rF ∨ m.cI ≠ m.cF) (accepts : 0 ≤ bishopIsIllegal g m) :
    0 ≤ bishopIsIllegal h (m.turned flip) := by
  obtain ⟨slope, clear⟩ := (bishopIsIllegal_nonneg g m moved).mp accepts
  have moved' : (m.turned flip).rI ≠ (m.turned flip).rF ∨ (m.turned flip).cI ≠ (m.turned flip).cF :=
    moved.imp_left fun rows same => rows (turnRow_inj.mp same)
  refine (bishopIsIllegal_nonneg h (m.turned flip) moved').mpr ⟨?_, fun k low high => ?_⟩
  · exact (turned_distance m).trans slope
  · rw [turned_distance] at high
    have away : m.rI ≠ m.rF := by omega
    rw [← turned_step m k away]
    exact (image.type _ _).trans (clear k low high)

/-- The diagonal rule. -/
theorem Image.bishop (image : Image flip shift g h) (m : Move) :
    bishopIsIllegal h (m.turned flip) = bishopIsIllegal g m := by
  apply code_ext (bishopIsIllegal_code g m) (bishopIsIllegal_code h _)
  by_cases moved : m.rI ≠ m.rF ∨ m.cI ≠ m.cF
  · refine ⟨fun accepts => ?_, image.bishop_nonneg moved⟩
    have moved' : (m.turned flip).rI ≠ (m.turned flip).rF ∨
        (m.turned flip).cI ≠ (m.turned flip).cF :=
      moved.imp_left fun rows same => rows (turnRow_inj.mp same)
    have back := image.symm.bishop_nonneg moved' accepts
    simpa only [Move.turned, turnRow_turnRow] using back
  · -- a walk of no steps meets nothing
    push Not at moved
    unfold bishopIsIllegal
    simp [Move.turned, moved.1, moved.2, bishopScan]

/-- The queen's rule. -/
theorem Image.queen (image : Image flip shift g h) (m : Move) :
    queenIsIllegal h (m.turned flip) = queenIsIllegal g m := by
  unfold queenIsIllegal
  simp only [image.rook, image.bishop]
  simp only [Move.turned, turnRow_distance]

/-- Pieces strike corresponding squares. -/
theorem Image.strike (image : Image flip shift g h) {i j : Int}
    (full : (g.get i j).type ≠ .empty) (r c : Int) :
    strikes h (turnRow flip i) j (turnRow flip r) c = strikes g i j r c := by
  have known := (image.square i j).known full
  have owner := (image.square i j).owner full
  have turned : (⟨turnRow flip i, j, turnRow flip r, c, .queen⟩ : Move) =
      Move.turned flip ⟨i, j, r, c, .queen⟩ := rfl
  have ahead : turnRow flip i + direction (turnPlayer flip (g.get i j).player) = turnRow flip r ↔
      i + direction (g.get i j).player = r := by
    rw [← turnRow_ahead flip known, turnRow_inj]
  unfold strikes
  simp only [image.type, owner, turned, image.rook, image.bishop,
    image.queen, knightIsIllegal_turned, turnRow_distance, ahead]

/-! ## Attacks -/

/-- Corresponding opponents strike corresponding squares. -/
theorem Image.attack (image : Image flip shift g h) {player : Player} (known : player.Known)
    (r c : Int) (s : Int × Int) :
    attacksFrom h (turnRow flip r) c (turnPlayer flip player) (turnSquare flip s) =
      attacksFrom g r c player s := by
  unfold attacksFrom
  simp only [turnSquare, image.type]
  by_cases free : (g.get s.1 s.2).type = .empty
  · simp [free]
  have owned := (image.square s.1 s.2).known free
  have foe : turnPlayer flip (g.get s.1 s.2).player = otherPlayer (turnPlayer flip player) ↔
      (g.get s.1 s.2).player = otherPlayer player := by
    rw [← turnPlayer_other known, turnPlayer_inj owned known.other]
  simp only [(image.square s.1 s.2).owner free, foe, image.strike free]

/-- What is struck is struck from the other side as well. -/
theorem Image.struck_of (image : Image flip shift g h) {player : Player} (known : player.Known)
    {r c : Int} (struck : Struck g r c player) :
    Struck h (turnRow flip r) c (turnPlayer flip player) := by
  obtain ⟨i, j, on, hit⟩ := struck
  exact ⟨turnRow flip i, j, onBoard_turnRow.mpr on, (image.attack known r c (i, j)).trans hit⟩

/-- Corresponding squares are struck. -/
theorem Image.struck (image : Image flip shift g h) {player : Player} (known : player.Known)
    (r c : Int) :
    Struck h (turnRow flip r) c (turnPlayer flip player) ↔ Struck g r c player := by
  refine ⟨fun struck => ?_, image.struck_of known⟩
  have back := image.symm.struck_of known.turned struck
  rwa [turnRow_turnRow, turnPlayer_turnPlayer known] at back

/-! ## The checks before the piece rules -/

/-- The first checks pass on both games. -/
theorem Image.mine_of (image : Image flip shift g h) {m : Move} {player : Player}
    (mine : Mine g m player) : Mine h (m.turned flip) (turnPlayer flip player) where
  onS := onBoard_turnRow.mpr mine.onS
  onT := onBoard_turnRow.mpr mine.onT
  full := by
    show (h.get (turnRow flip m.rI) m.cI).type ≠ .empty
    rw [image.type]
    exact mine.full
  owner := by
    show (h.get (turnRow flip m.rI) m.cI).player = turnPlayer flip player
    rw [(image.square m.rI m.cI).owner mine.full, mine.owner]
  free := by
    show (h.get (turnRow flip m.rF) m.cF).type = .empty ∨
      (h.get (turnRow flip m.rF) m.cF).player ≠ turnPlayer flip player
    rw [image.type]
    by_cases free : (g.get m.rF m.cF).type = .empty
    · exact Or.inl free
    · right
      have known := (image.square m.rI m.cI).known mine.full
      rw [mine.owner] at known
      rw [(image.square m.rF m.cF).owner free]
      intro same
      have owned := (image.square m.rF m.cF).known free
      exact mine.free.resolve_left free ((turnPlayer_inj owned known).mp same)

/-- The first checks pass on both games or on none. -/
theorem Image.mine (image : Image flip shift g h) {m : Move} {player : Player}
    (known : player.Known) :
    Mine h (m.turned flip) (turnPlayer flip player) ↔ Mine g m player := by
  refine ⟨fun mine => ?_, image.mine_of⟩
  have back := image.symm.mine_of mine
  rw [turnPlayer_turnPlayer known] at back
  simpa only [Move.turned, turnRow_turnRow] using back

/-! ## Pawns -/

/-- A pawn goes the same way on both games. -/
theorem Image.pawnGoes_of (image : Image flip shift g h) {m : Move}
    (full : (g.get m.rI m.cI).type ≠ .empty) {captured : Option (Int × Int)}
    (goes : PawnGoes g m captured) :
    PawnGoes h (m.turned flip) (captured.map (turnSquare flip)) := by
  have known := (image.square m.rI m.cI).known full
  have owner : (h.get (m.turned flip).rI (m.turned flip).cI).player =
      turnPlayer flip (g.get m.rI m.cI).player := (image.square m.rI m.cI).owner full
  have moves : (h.get (m.turned flip).rI (m.turned flip).cI).moves = (g.get m.rI m.cI).moves :=
    (image.square m.rI m.cI).moves full
  have ahead := turnRow_ahead flip known m.rI
  have double := turnRow_direction flip known m.rI 2
  rw [← owner] at ahead double
  cases goes with
  | step straight row clear =>
    refine .step straight ?_ ((image.type m.rF m.cI).trans clear)
    exact (congrArg (turnRow flip) row).trans ahead
  | double straight row clear arrives unmoved =>
    refine .double straight ((congrArg (turnRow flip) row).trans double) ?_
      ((image.type m.rF m.cI).trans arrives) (moves.trans unmoved)
    show (h.get (turnRow flip m.rI + _) m.cI).type = .empty
    rw [← ahead, image.type]
    exact clear
  | takes beside row occupied =>
    refine .takes beside ((congrArg (turnRow flip) row).trans ahead) ?_
    show (h.get (turnRow flip m.rF) m.cF).type ≠ .empty
    rw [image.type]
    exact occupied
  | passing beside row clear pawn foe once rank now =>
    have there : (g.get m.rI m.cF).type ≠ .empty := by
      rw [pawn]
      decide
    have same := image.square m.rI m.cF
    refine .passing beside ((congrArg (turnRow flip) row).trans ahead)
      ((image.type m.rF m.cF).trans clear) ((image.type m.rI m.cF).trans pawn) ?_
      ((same.moves there).trans once) ?_ ?_
    · rw [owner]
      show (h.get (turnRow flip m.rI) m.cF).player ≠ _
      rw [same.owner there]
      exact fun equal => foe ((turnPlayer_inj (same.known there) known).mp equal)
    · rw [owner]
      exact (turned_row_iff flip known 3 4 (by norm_num)).mpr rank
    · show (h.get (turnRow flip m.rI) m.cF).lastMove = h.duration
      have moved : (g.get m.rI m.cF).moves ≠ 0 := by
        rw [once]
        decide
      rw [same.last there moved, now, image.duration]

/-- The geometry test of a pawn. -/
theorem Image.pawn (image : Image flip shift g h) {m : Move}
    (full : (g.get m.rI m.cI).type ≠ .empty) :
    pawnGoes h (m.turned flip) = (pawnGoes g m).map (Option.map (turnSquare flip)) := by
  have full' : (h.get (m.turned flip).rI (m.turned flip).cI).type ≠ .empty := by
    show (h.get (turnRow flip m.rI) m.cI).type ≠ .empty
    rw [image.type]
    exact full
  cases goes : pawnGoes g m with
  | some captured => exact pawnGoes_iff.mpr (image.pawnGoes_of full (pawnGoes_iff.mp goes))
  | none =>
    cases goes' : pawnGoes h (m.turned flip) with
    | none => rfl
    | some captured =>
      have back := pawnGoes_iff.mpr (image.symm.pawnGoes_of full' (pawnGoes_iff.mp goes'))
      simp only [Move.turned, turnRow_turnRow] at back
      rw [goes] at back
      cases back

/-- The last row. -/
theorem Image.lastRow (image : Image flip shift g h) {m : Move}
    (full : (g.get m.rI m.cI).type ≠ .empty) : LastRow h (m.turned flip) ↔ LastRow g m := by
  have known := (image.square m.rI m.cI).known full
  have owner : (h.get (m.turned flip).rI (m.turned flip).cI).player =
      turnPlayer flip (g.get m.rI m.cI).player := (image.square m.rI m.cI).owner full
  unfold LastRow
  rw [owner]
  exact turned_row_iff flip known 0 7 (by norm_num)

/-! ## Castling -/

/-- The board allows the same castling on both games. -/
theorem Image.castling_of (image : Image flip shift g h) {m : Move} {cc stop : Int}
    (full : (g.get m.rI m.cI).type ≠ .empty) (castling : Castling g m cc stop) :
    Castling h (m.turned flip) cc stop where
  step := castling.step
  row := congrArg (turnRow flip) castling.row
  two := castling.two
  unmoved := ((image.square m.rI m.cI).moves full).trans castling.unmoved
  beyond := castling.beyond
  path x after before := (image.type m.rI x).trans (castling.path x after before)
  rook := (image.type m.rI stop).trans castling.rook
  still := by
    have there : (g.get m.rI stop).type ≠ .empty := by
      rw [castling.rook]
      decide
    exact ((image.square m.rI stop).moves there).trans castling.still

/-! ## What the tests write -/

/-- Writing the same type on corresponding occupied squares. -/
theorem Image.retyped (image : Image flip shift g h) {r c : Int} (t : PieceType)
    (full : (g.get r c).type ≠ .empty) :
    Image flip shift (g.setType r c t) (h.setType (turnRow flip r) c t) where
  parity := image.parity
  duration := image.duration
  big := image.big
  square x y := by
    rw [Game.get_setType, Game.get_setType]
    simp only [onBoard_turnRow, turnRow_inj]
    split
    · have same := image.square r c
      exact ⟨rfl, fun _ => same.known full, fun _ => same.owner full, fun _ => same.moves full,
        fun _ => same.last full⟩
    · exact image.square x y

/-- A claim on the first game. -/
theorem Image.claim_left (image : Image flip shift g h) (r c : Int) (player : Player) :
    Image flip shift (claim g r c player) h where
  parity := image.parity
  duration := by
    rw [claim_duration]
    exact image.duration
  big := by
    rw [claim_lastBigMove]
    exact image.big
  square x y := by
    rw [get_claim]
    split
    · rename_i here
      obtain ⟨-, rfl, rfl, free⟩ := here
      exact .empty free ((image.type x y).trans free)
    · exact image.square x y

/-- A claim on the second game. -/
theorem Image.claim_right (image : Image flip shift g h) (r c : Int) (player : Player) :
    Image flip shift g (claim h r c player) := by
  have back := (image.symm.claim_left r c player).symm
  rwa [neg_neg] at back

/-- Promoting corresponding attackers. -/
theorem Image.crowned (image : Image flip shift g h) (i j r : Int) :
    Image flip shift (promoteAttacker g i j r)
      (promoteAttacker h (turnRow flip i) j (turnRow flip r)) := by
  unfold promoteAttacker
  rw [image.type]
  by_cases pawn : (g.get i j).type = .pawn
  · have full : (g.get i j).type ≠ .empty := by
      rw [pawn]
      decide
    have same := image.square i j
    rw [same.owner full]
    have last := turned_row_iff flip (r := r) (same.known full) 0 7 (by norm_num)
    by_cases crowned : ((g.get i j).player = .white ∧ r = 0) ∨ ((g.get i j).player = .black ∧ r = 7)
    · rw [if_pos ⟨pawn, crowned⟩, if_pos ⟨pawn, last.mpr crowned⟩]
      exact image.retyped .queen full
    · rw [if_neg fun both => crowned both.2, if_neg fun both => crowned (last.mp both.2)]
      exact image
  · rw [if_neg fun both => pawn both.1, if_neg fun both => pawn both.1]
    exact image

/-! ## The verdict -/

/-- Two verdicts on moves that look alike. Where a king may not castle, the attack tests have
promoted the first attacker in reading order, which depends on the side. -/
structure Alike (flip : Bool) (shift : Int) (v v' : Verdict) : Prop where
  /-- The codes are the same. -/
  code : v'.code = v.code
  /-- The same pawn is taken in passing. -/
  captured : v'.captured = v.captured.map (turnSquare flip)
  /-- The same rook castles. -/
  rook : v'.rook = v.rook
  /-- The boards look alike, unless the move is refused and the sides differ. -/
  game : flip = false ∨ 0 ≤ v.code → Image flip shift v.game v'.game

/-- A code with nothing written. -/
theorem Image.plain (image : Image flip shift g h) (code : Int) :
    Alike flip shift (.plain g code) (.plain h code) :=
  ⟨rfl, rfl, rfl, fun _ => image⟩

/-- The promotion of a pawn. -/
theorem Image.promotion (image : Image flip shift g h) {m : Move}
    (full : (g.get m.rI m.cI).type ≠ .empty) (captured : Option (Int × Int)) :
    Alike flip shift (promotePawn g m captured)
      (promotePawn h (m.turned flip) (captured.map (turnSquare flip))) := by
  have row := image.lastRow full
  unfold promotePawn
  dsimp only
  by_cases last : LastRow g m
  · rw [if_pos (show (_ ∧ _ ∨ _ ∧ _) from last), if_pos (show (_ ∧ _ ∨ _ ∧ _) from row.mpr last)]
    show Alike flip shift (if m.promotion.isPromotion then _ else _)
      (if m.promotion.isPromotion then _ else _)
    split
    · exact ⟨rfl, rfl, rfl, fun _ => image.retyped m.promotion full⟩
    · exact ⟨rfl, rfl, rfl, fun _ => image⟩
  · rw [if_neg (show ¬ (_ ∧ _ ∨ _ ∧ _) from last),
      if_neg (show ¬ (_ ∧ _ ∨ _ ∧ _) from fun other => last (row.mp other))]
    exact ⟨rfl, rfl, rfl, fun _ => image⟩

/-- The pawn rule. -/
theorem Image.pawnRule (image : Image flip shift g h) {m : Move}
    (full : (g.get m.rI m.cI).type ≠ .empty) :
    Alike flip shift (pawnIsIllegal g m) (pawnIsIllegal h (m.turned flip)) := by
  rw [pawnIsIllegal_eq, pawnIsIllegal_eq, image.pawn full]
  cases pawnGoes g m with
  | none => exact image.plain illegalMove
  | some captured => exact image.promotion full captured

/-- A stopped castling has an attacked square. -/
theorem Stopped.struck {after : Game} {r c cc : Int} {player : Player}
    (stopped : Stopped g r c cc player after) :
    Struck g r c player ∨ Struck g r (c + cc) player ∨ Struck g r (c + cc * 2) player := by
  cases stopped with
  | first hit => exact Or.inl (struck_iff.mpr ⟨_, _, hit⟩)
  | second safe hit => exact Or.inr (Or.inl (struck_iff.mpr ⟨_, _, hit⟩))
  | third safe passing hit => exact Or.inr (Or.inr (struck_iff.mpr ⟨_, _, hit⟩))

/-- From the same side the first attacker is the same. -/
theorem Image.foremost (image : Image false shift g h) {player : Player} (known : player.Known)
    (r c : Int) : firstAttacker h r c player = firstAttacker g r c player := by
  unfold firstAttacker
  congr 1
  funext s
  exact image.attack known r c s

/-- From the same side a stopped castling leaves the same writes. -/
theorem Image.stopped (image : Image false shift g h) {after after' : Game} {r c cc : Int}
    {player : Player} (known : player.Known) (stopped : Stopped g r c cc player after)
    (stopped' : Stopped h r c cc player after') : Image false shift after after' := by
  have found := image.foremost known
  have struck : ∀ x y, Struck h x y player ↔ Struck g x y player := image.struck known
  have hit : ∀ {x y s}, firstAttacker g x y player = some s → Struck g x y player := by
    intro x y s here
    exact struck_iff.mpr ⟨s.1, s.2, here⟩
  -- both games promote the same attacker, behind the same claims
  have same : ∀ {x y : Int} {s s' : Int × Int}, firstAttacker g x y player = some s →
      firstAttacker h x y player = some s' → s' = s := by
    intro x y s s' here there
    rw [found, here] at there
    exact (Option.some.inj there).symm
  cases stopped with
  | first here =>
    cases stopped' with
    | first there =>
      cases same here there
      exact image.crowned _ _ _
    | second safe => exact absurd ((struck _ _).mpr (hit here)) safe
    | third safe => exact absurd ((struck _ _).mpr (hit here)) safe
  | second safe here =>
    cases stopped' with
    | first there => exact absurd ((struck _ _).mp (struck_iff.mpr ⟨_, _, there⟩)) safe
    | second _ there =>
      cases same here there
      exact ((image.claim_left _ _ _).claim_right _ _ _).crowned _ _ _
    | third _ passing => exact absurd ((struck _ _).mpr (hit here)) passing
  | third safe passing here =>
    cases stopped' with
    | first there => exact absurd ((struck _ _).mp (struck_iff.mpr ⟨_, _, there⟩)) safe
    | second _ there => exact absurd ((struck _ _).mp (struck_iff.mpr ⟨_, _, there⟩)) passing
    | third _ _ there =>
      cases same here there
      exact ((((image.claim_left _ _ _).claim_left _ _ _).claim_right _ _ _).claim_right _ _
        _).crowned _ _ _

section Rules

variable {m : Move} {player : Player} (image : Image flip shift g h) (sound : Sound g)
  (sound' : Sound h) (known : player.Known) (mine : Mine g m player)

include image sound sound' known mine

/-- The attack tests of castling. -/
theorem Image.castleTests (kind : (g.get m.rI m.cI).type = .king) {cc stop : Int}
    (castling : Castling g m cc stop) :
    ∃ hit after after',
      (∀ depth, anyAttacked (pieceIsAttacked (depth + 1)) m.rI m.cI
        [(m.rI, m.cI), (m.rI, m.cI + cc), (m.rI, m.cI + cc * 2)] g = some (hit, after)) ∧
      (∀ depth, anyAttacked (pieceIsAttacked (depth + 1)) (turnRow flip m.rI) m.cI
        [(turnRow flip m.rI, m.cI), (turnRow flip m.rI, m.cI + cc),
          (turnRow flip m.rI, m.cI + cc * 2)] h = some (hit, after')) ∧
      (flip = false ∨ hit = false → Image flip shift after after') := by
  have mine' := image.mine_of mine
  have kind' : (h.get (m.turned flip).rI (m.turned flip).cI).type = .king :=
    (image.type m.rI m.cI).trans kind
  have castling' := image.castling_of mine.full castling
  obtain ⟨hit, after, tests, outcome⟩ := anyAttacked_eq sound.home known mine kind castling
  obtain ⟨hit', after', tests', outcome'⟩ :=
    anyAttacked_eq sound'.home known.turned mine' kind' castling'
  have struck := image.struck known m.rI
  cases hit with
  | true =>
    cases hit' with
    | true =>
      refine ⟨true, after, after', tests, tests', fun sides => ?_⟩
      obtain rfl : flip = false := sides.resolve_right (by decide)
      exact image.stopped known outcome outcome'
    | false =>
      have safe := outcome'
      simp only [Bool.false_eq_true, ↓reduceIte] at safe
      rcases Stopped.struck outcome with first | second | third
      · exact absurd ((struck _).mpr first) safe.1
      · exact absurd ((struck _).mpr second) safe.2.1
      · exact absurd ((struck _).mpr third) safe.2.2.1
  | false =>
    simp only [Bool.false_eq_true, ↓reduceIte] at outcome
    cases hit' with
    | true =>
      rcases Stopped.struck outcome' with first | second | third
      · exact absurd ((struck _).mp first) outcome.1
      · exact absurd ((struck _).mp second) outcome.2.1
      · exact absurd ((struck _).mp third) outcome.2.2.1
    | false =>
      simp only [Bool.false_eq_true, ↓reduceIte] at outcome'
      refine ⟨false, after, after', tests, tests', fun _ => ?_⟩
      rw [outcome.2.2.2, outcome'.2.2.2]
      exact (((image.claim_left _ _ _).claim_left _ _ _).claim_right _ _ _).claim_right _ _ _

/-- The king rule. -/
theorem Image.kingRule (kind : (g.get m.rI m.cI).type = .king) :
    ∃ v v', (∀ depth, kingIsIllegal (pieceIsAttacked (depth + 1)) g m = some v) ∧
      (∀ depth, kingIsIllegal (pieceIsAttacked (depth + 1)) h (m.turned flip) = some v') ∧
      Alike flip shift v v' := by
  have mine' := image.mine_of mine
  by_cases near : (m.rF - m.rI).natAbs ≤ 1 ∧ (m.cF - m.cI).natAbs ≤ 1
  · have near' : ((m.turned flip).rF - (m.turned flip).rI).natAbs ≤ 1 ∧
        ((m.turned flip).cF - (m.turned flip).cI).natAbs ≤ 1 := by
      rw [turned_distance]
      exact near
    exact ⟨_, _, fun _ => kingIsIllegal_near _ near, fun _ => kingIsIllegal_near _ near',
      image.plain 0⟩
  have far : ¬ (((m.turned flip).rF - (m.turned flip).rI).natAbs ≤ 1 ∧
      ((m.turned flip).cF - (m.turned flip).cI).natAbs ≤ 1) := by
    rw [turned_distance]
    exact near
  by_cases allowed : ∃ cc stop, Castling g m cc stop
  · obtain ⟨cc, stop, castling⟩ := allowed
    obtain ⟨hit, after, after', tests, tests', alike⟩ :=
      image.castleTests sound sound' known mine kind castling
    have asked :=
      fun depth => kingIsIllegal_castling (pieceIsAttacked (depth + 1)) mine.onS castling
    have asked' := fun depth => kingIsIllegal_castling (pieceIsAttacked (depth + 1)) mine'.onS
      (image.castling_of mine.full castling)
    simp only [tests, Option.bind_some] at asked
    have chain : ∀ depth, anyAttacked (pieceIsAttacked (depth + 1)) (m.turned flip).rI
        (m.turned flip).cI [((m.turned flip).rI, (m.turned flip).cI),
          ((m.turned flip).rI, (m.turned flip).cI + cc),
          ((m.turned flip).rI, (m.turned flip).cI + cc * 2)] h = some (hit, after') := tests'
    simp only [chain, Option.bind_some] at asked'
    cases hit with
    | true =>
      refine ⟨_, _, asked, asked', rfl, rfl, rfl, fun sides => alike (Or.inl ?_)⟩
      exact sides.resolve_right (show ¬ 0 ≤ illegalMove by decide)
    | false =>
      refine ⟨_, _, asked, asked', rfl, rfl, ?_, fun _ => alike (Or.inr rfl)⟩
      have placed : m.rI ≠ -1 := by
        have := mine.onS.1
        omega
      have placed' : (m.turned flip).rI ≠ -1 := by
        have := mine'.onS.1
        omega
      simp only [Verdict.rook, if_neg placed, if_neg placed']
      rfl
  · refine ⟨_, _, fun _ => kingIsIllegal_far _ mine.onS near
      (fun cc stop castling => allowed ⟨cc, stop, castling⟩), fun _ => kingIsIllegal_far _ mine'.onS
      far ?_, image.plain illegalMove⟩
    intro cc stop castling
    have back := image.symm.castling_of mine'.full castling
    simp only [Move.turned, turnRow_turnRow] at back
    exact allowed ⟨cc, stop, back⟩

end Rules

/-- The legality check. -/
theorem Image.verdict (image : Image flip shift g h) (sound : Sound g) (sound' : Sound h)
    (m : Move) {player : Player} (known : player.Known) :
    ∃ v v', (∀ depth, isIllegal (depth + 1) g m player = some v) ∧
      (∀ depth, isIllegal (depth + 1) h (m.turned flip) (turnPlayer flip player) = some v') ∧
      Alike flip shift v v' := by
  unfold isIllegal
  by_cases mine : Mine g m player
  swap
  · have foreign : ¬ Mine h (m.turned flip) (turnPlayer flip player) :=
      fun mine' => mine ((image.mine known).mp mine')
    exact ⟨_, _, fun _ => isIllegalWith_foreign _ mine, fun _ => isIllegalWith_foreign _ foreign,
      image.plain illegalMove⟩
  have type : (h.get (m.turned flip).rI (m.turned flip).cI).type = (g.get m.rI m.cI).type :=
    image.type m.rI m.cI
  simp only [isIllegalWith_mine _ mine, isIllegalWith_mine _ (image.mine_of mine), type,
    image.rook, image.bishop, image.queen, knightIsIllegal_turned]
  cases kind : (g.get m.rI m.cI).type with
  | rook | knight | bishop | queen | empty | other =>
    exact ⟨_, _, fun _ => rfl, fun _ => rfl, image.plain _⟩
  | king => exact image.kingRule sound sound' known mine kind
  | pawn => exact ⟨_, _, fun _ => rfl, fun _ => rfl, image.pawnRule mine.full⟩

end Image

end Chessh
