import Chessh.Verif.Lines

/-!
# Games that track positions

A game remembers no castling rights and no en passant column; it counts how often and when
each piece moved. `Tracks` says how the counters stand for a position of the rules, and the
two halves of `Tracks.pseudo_iff` show that on a game that tracks a position the legality
check passes exactly the moves of the men.
-/

namespace Chessh

open Rules (Side Kind Man Square Wing Ply Position Placement Reaches Attacked InCheck Inside)

/-- A man that has not moved stands on the square. -/
def Unmoved (g : Game) (side : Side) (kind : Kind) (r c : Int) : Prop :=
  (g.get r c).man = some ⟨side, kind⟩ ∧ (g.get r c).moves = 0

/-- The game stands for the position. -/
structure Tracks (g : Game) (pos : Position) : Prop where
  /-- The board is sound. -/
  sound : Sound g
  /-- Every piece has a kind and an owner. -/
  known : Known g
  /-- The position is one a game can reach. -/
  wf : pos.WellFormed
  /-- The same men stand on the same squares. -/
  board : pos.board = g.placement
  /-- The same side is to move. -/
  turn : getPlayer g = playerOf pos.turn
  /-- A right to castle is an unmoved king and an unmoved rook. -/
  rights : ∀ side wing, pos.rights side wing ↔
    Unmoved g side .king side.homeRow 4 ∧ Unmoved g side .rook side.homeRow wing.corner
  /-- A king that may still castle stands at home. -/
  home : ∀ side r c x y, Unmoved g side .king r c → Unmoved g side .rook x y →
    r = side.homeRow ∧ c = 4
  /-- The pawns on their start row are the unmoved ones. -/
  start : ∀ side r c, (g.get r c).man = some ⟨side, .pawn⟩ →
    ((g.get r c).moves = 0 ↔ r = side.pawnRow)
  /-- The first move of a pawn lies in the past. -/
  past : ∀ r c, (g.get r c).type = .pawn → (g.get r c).moves = 1 →
    (g.get r c).lastMove ≤ g.duration
  /-- The pawn that has just made a double step has moved once, on the last turn. -/
  passing : ∀ c, pos.passing = some c ↔
    (g.get pos.turn.other.doubleRow c).man = some ⟨pos.turn.other, .pawn⟩ ∧
      (g.get pos.turn.other.doubleRow c).moves = 1 ∧
      (g.get pos.turn.other.doubleRow c).lastMove = g.duration

/-- The kinds a pawn may become. -/
theorem isPromotion_iff {t : PieceType} :
    t.isPromotion = true ↔ ∃ kind, t.kind = some kind ∧ kind.Promotes := by
  cases t <;> simp [PieceType.isPromotion, PieceType.kind, Kind.Promotes]

/-- The last row of a pawn. -/
theorem lastRow_iff {g : Game} {m : Move} {side : Side}
    (owner : (g.get m.rI m.cI).player = playerOf side) : LastRow g m ↔ m.rF = side.lastRow := by
  unfold LastRow
  rw [owner]
  cases side <;> simp [playerOf, Side.lastRow, Side.homeRow, Side.other]

section Pseudo

variable {g : Game} {pos : Position} {m : Move}

/-- What stands on a square of the position. -/
theorem Tracks.get (tracks : Tracks g pos) (r c : Int) : pos.board (r, c) = (g.get r c).man := by
  rw [tracks.board]
  rfl

/-- A square is free when it is empty. -/
theorem Tracks.free (tracks : Tracks g pos) (r c : Int) :
    pos.board (r, c) = none ↔ (g.get r c).type = .empty := by
  rw [tracks.board]
  exact tracks.known.free r c

/-- The piece that moves is a man of the side to move. -/
theorem Tracks.mover (tracks : Tracks g pos) (mine : Mine g m (getPlayer g)) :
    ∃ kind, pos.board m.ply.source = some ⟨pos.turn, kind⟩ ∧
      (g.get m.rI m.cI).type = typeOf kind := by
  obtain ⟨side, kind, man⟩ := tracks.known.man mine.full
  obtain ⟨type, owner⟩ := man_eq_some.mp man
  rw [mine.owner, tracks.turn, playerOf_inj] at owner
  subst owner
  exact ⟨kind, (tracks.get _ _).trans man, type⟩

/-- The first checks of `is_illegal` in the terms of the position. -/
theorem Tracks.mine_iff (tracks : Tracks g pos) :
    Mine g m (getPlayer g) ↔
      Inside m.ply.source ∧ Inside m.ply.target ∧ pos.Own m.ply.source ∧
        ¬ pos.Own m.ply.target := by
  constructor
  · intro mine
    obtain ⟨kind, own, -⟩ := tracks.mover mine
    refine ⟨mine.onS, mine.onT, ⟨kind, own⟩, ?_⟩
    rintro ⟨kind', there⟩
    obtain ⟨type, owner⟩ := man_eq_some.mp ((tracks.get _ _).symm.trans there)
    rcases mine.free with empty | foe
    · rw [type] at empty
      exact typeOf_ne_empty kind' empty
    · exact foe (owner.trans tracks.turn.symm)
  · rintro ⟨onS, onT, ⟨kind, own⟩, free⟩
    obtain ⟨type, owner⟩ := man_eq_some.mp ((tracks.get _ _).symm.trans own)
    refine ⟨onS, onT, ?_, owner.trans tracks.turn.symm, ?_⟩
    · rw [type]
      exact typeOf_ne_empty kind
    · by_contra taken
      push Not at taken
      obtain ⟨side, kind', man⟩ := tracks.known.man taken.1
      obtain ⟨-, owner'⟩ := man_eq_some.mp man
      rw [taken.2, tracks.turn, playerOf_inj] at owner'
      subst owner'
      exact free ⟨kind', (tracks.get _ _).trans man⟩

/-- A man on the final square belongs to the opponent. -/
theorem Tracks.foe (tracks : Tracks g pos) (mine : Mine g m (getPlayer g))
    (full : (g.get m.rF m.cF).type ≠ .empty) :
    ∃ kind, pos.board m.ply.target = some ⟨pos.turn.other, kind⟩ := by
  obtain ⟨side, kind, man⟩ := tracks.known.man full
  refine ⟨kind, (tracks.get _ _).trans ?_⟩
  rcases Side.eq_or_other pos.turn side with rfl | rfl
  · have owner := (man_eq_some.mp man).2
    exact absurd (owner.trans tracks.turn.symm) (mine.free.resolve_left full)
  · exact man

/-- A pawn belongs to another player than the one to move when it is the opponent's. -/
theorem Tracks.foe_iff (tracks : Tracks g pos) {r c : Int} (pawn : (g.get r c).type = .pawn) :
    (g.get r c).player ≠ playerOf pos.turn ↔ (g.get r c).man = some ⟨pos.turn.other, .pawn⟩ := by
  obtain ⟨side, kind, there⟩ := tracks.known.man (g := g) (r := r) (c := c) (by rw [pawn]; decide)
  obtain ⟨type, owner⟩ := man_eq_some.mp there
  rw [pawn] at type
  obtain rfl : kind = .pawn := (typeOf_inj (a := .pawn)).mp type |>.symm
  rw [owner, there, ne_eq, playerOf_inj]
  rcases Side.eq_or_other pos.turn side with rfl | rfl <;> simp

/-- The row on which a pawn of the side to move may take in passing. -/
theorem passing_row {side : Side} {player : Player} (owner : player = playerOf side) {r : Int} :
    (player = .white ∧ r = 3) ∨ (player = .black ∧ r = 4) ↔ r = side.other.doubleRow := by
  rw [owner]
  cases side <;> simp [playerOf, Side.doubleRow, Side.other, Side.pawnRow, Side.forward]

/-- A pawn that goes straight takes nothing. -/
theorem straight_casualty (straight : m.cF = m.cI) : pos.casualty m.ply = none :=
  if_neg fun h => h.2.1 straight.symm

/-- A pawn that goes to a square where something stands takes nothing in passing. -/
theorem taken_casualty {man : Man} (there : pos.board m.ply.target = some man) :
    pos.casualty m.ply = none := by
  refine if_neg fun h => ?_
  rw [h.2.2] at there
  cases there

/-- A pawn that goes to an empty square of another column takes in passing. -/
theorem passing_casualty (own : pos.board m.ply.source = some ⟨pos.turn, .pawn⟩)
    (beside : (m.cF - m.cI).natAbs = 1) (clear : pos.board m.ply.target = none) :
    pos.casualty m.ply = some (m.rI, m.cF) := by
  refine if_pos ⟨own, ?_, clear⟩
  show m.cI ≠ m.cF
  omega

/-- What the pawn rule passes is a move of a pawn. -/
theorem Tracks.pseudo_of_goes (tracks : Tracks g pos) (mine : Mine g m (getPlayer g))
    (own : pos.board m.ply.source = some ⟨pos.turn, .pawn⟩) (promotion : pos.Promotion m.ply)
    {captured} (goes : PawnGoes g m captured) :
    pos.Pseudo m.ply ∧ captured = pos.casualty m.ply := by
  have man := (tracks.get _ _).symm.trans own
  have owner : (g.get m.rI m.cI).player = playerOf pos.turn := mine.owner.trans tracks.turn
  cases goes with
  | step straight row clear =>
    rw [owner, direction_playerOf] at row
    refine ⟨.single own ?_ ?_ promotion, (straight_casualty straight).symm⟩
    · exact Prod.ext row straight
    · rw [← straight] at clear
      exact (tracks.free _ _).mpr clear
  | double straight row clear arrives unmoved =>
    rw [owner, direction_playerOf] at row clear
    have start := (tracks.start _ _ _ man).mp unmoved
    refine ⟨.double own start ?_ ?_ ?_, (straight_casualty straight).symm⟩
    · exact Prod.ext (show m.rF = m.rI + 2 * pos.turn.forward by omega) straight
    · exact (tracks.free _ _).mpr clear
    · rw [← straight] at arrives
      exact (tracks.free _ _).mpr arrives
  | takes beside row full =>
    rw [owner, direction_playerOf] at row
    obtain ⟨kind, there⟩ := tracks.foe mine full
    exact ⟨.takes own ⟨row, beside⟩ ⟨kind, there⟩ promotion, (taken_casualty there).symm⟩
  | passing beside row clear pawn enemy once rows now =>
    have rows := (passing_row owner).mp rows
    rw [owner, direction_playerOf] at row
    rw [owner] at enemy
    have empty : pos.board m.ply.target = none := (tracks.free _ _).mpr clear
    have passing : pos.passing = some m.cF := by
      rw [tracks.passing, ← rows]
      exact ⟨(tracks.foe_iff pawn).mp enemy, once, now⟩
    exact ⟨.enPassant own ⟨row, beside⟩ rows passing empty,
      (passing_casualty own beside empty).symm⟩

/-- A move of a pawn passes the pawn rule. -/
theorem Tracks.goes_of_pseudo (tracks : Tracks g pos) (mine : Mine g m (getPlayer g))
    (own : pos.board m.ply.source = some ⟨pos.turn, .pawn⟩) (pseudo : pos.Pseudo m.ply) :
    PawnGoes g m (pos.casualty m.ply) := by
  have man := (tracks.get _ _).symm.trans own
  have owner : (g.get m.rI m.cI).player = playerOf pos.turn := mine.owner.trans tracks.turn
  cases pseudo with
  | officer own' notPawn =>
    rw [own] at own'
    cases own'
    exact absurd rfl notPawn
  | single own' ahead clear =>
    obtain ⟨row, straight⟩ : m.rF = m.rI + pos.turn.forward ∧ m.cF = m.cI :=
      ⟨congrArg Prod.fst ahead, congrArg Prod.snd ahead⟩
    rw [straight_casualty straight]
    refine .step straight ?_ ?_
    · rw [owner, direction_playerOf]
      exact row
    · rw [← straight]
      exact (tracks.free _ _).mp clear
  | double own' start ahead jumped clear =>
    obtain ⟨row, straight⟩ : m.rF = m.rI + 2 * pos.turn.forward ∧ m.cF = m.cI :=
      ⟨congrArg Prod.fst ahead, congrArg Prod.snd ahead⟩
    rw [straight_casualty straight]
    refine .double straight ?_ ?_ ?_ ((tracks.start _ _ _ man).mpr start)
    · rw [owner, direction_playerOf, row, mul_comm]
    · rw [owner, direction_playerOf]
      exact (tracks.free _ _).mp jumped
    · rw [← straight]
      exact (tracks.free _ _).mp clear
  | takes own' reaches foe =>
    obtain ⟨row, beside⟩ : m.rF = m.rI + pos.turn.forward ∧ (m.cF - m.cI).natAbs = 1 := reaches
    obtain ⟨kind, there⟩ := foe
    rw [taken_casualty there]
    refine .takes beside (by rw [owner, direction_playerOf]; exact row) ?_
    rw [(man_eq_some.mp ((tracks.get _ _).symm.trans there)).1]
    exact typeOf_ne_empty kind
  | enPassant own' reaches row' passing clear =>
    obtain ⟨row, beside⟩ : m.rF = m.rI + pos.turn.forward ∧ (m.cF - m.cI).natAbs = 1 := reaches
    have here : m.rI = pos.turn.other.doubleRow := row'
    obtain ⟨pawn, once, now⟩ := (tracks.passing _).mp passing
    have pawn : (g.get pos.turn.other.doubleRow m.cF).man = some ⟨pos.turn.other, .pawn⟩ := pawn
    rw [← here] at pawn once now
    have type := (man_eq_some.mp pawn).1
    have enemy := (tracks.foe_iff type).mpr pawn
    rw [← owner] at enemy
    rw [passing_casualty own beside clear]
    exact .passing beside (by rw [owner, direction_playerOf]; exact row)
      ((tracks.free _ _).mp clear) type enemy once ((passing_row owner).mpr here) now
  | castle wing right king =>
    rw [own] at king
    cases king

/-- What the pawn rule decides. -/
theorem Tracks.pawnGoes_iff (tracks : Tracks g pos) (mine : Mine g m (getPlayer g))
    (kind : (g.get m.rI m.cI).type = .pawn) (promotion : pos.Promotion m.ply) {captured} :
    pawnGoes g m = some captured ↔ pos.Pseudo m.ply ∧ captured = pos.casualty m.ply := by
  obtain ⟨kind', own, type⟩ := tracks.mover mine
  obtain rfl : kind' = .pawn := typeOf_inj.mp (type.symm.trans kind)
  rw [Chessh.pawnGoes_iff]
  constructor
  · exact tracks.pseudo_of_goes mine own promotion
  · rintro ⟨pseudo, rfl⟩
    exact tracks.goes_of_pseudo mine own pseudo

/-- Where the engine would castle without looking at attacks, and the king is not attacked,
the rules grant the right: an enemy rook in the corner would attack the king. -/
theorem Tracks.right_of_castling (tracks : Tracks g pos) (mine : Mine g m (getPlayer g))
    (kind : (g.get m.rI m.cI).type = .king) {cc stop : Int} (castling : Castling g m cc stop)
    (safe : ¬ Attacked pos.board pos.turn.other m.ply.source) :
    ∃ wing, pos.rights pos.turn wing ∧ (m.rI = pos.turn.homeRow ∧ m.cI = 4) ∧
      cc = wing.step ∧ stop = wing.corner := by
  have king : (g.get m.rI m.cI).man = some ⟨pos.turn, .king⟩ :=
    man_eq_some.mpr ⟨kind, mine.owner.trans tracks.turn⟩
  obtain ⟨columns, rows⟩ := tracks.sound.rook _ _ castling.rook castling.still
  obtain ⟨low, high, ahead⟩ := castling.beyond
  obtain ⟨side, kind', man⟩ := tracks.known.man (g := g) (r := m.rI) (c := stop)
    (by rw [castling.rook]; decide)
  obtain rfl : kind' = .rook :=
    ((typeOf_inj (a := .rook)).mp (castling.rook.symm.trans (man_eq_some.mp man).1)).symm
  -- an enemy rook looks straight at the king
  obtain rfl : side = pos.turn := by
    rcases Side.eq_or_other pos.turn side with same | other
    · exact same
    subst other
    refine absurd ⟨(m.rI, stop), .rook, (tracks.get _ _).trans man, ?_⟩ safe
    refine ⟨(0, -cc), ?_, (stop - m.cI).natAbs, ?_, ?_, fun k pos' lt => ?_⟩
    · rcases castling.step with rfl | rfl <;> decide
    · rcases castling.step with rfl | rfl <;> omega
    · rcases castling.step with rfl | rfl <;> ext <;> dsimp only [Move.ply] <;> omega
    · have column : (m.rI + (k : Int) * 0, stop + (k : Int) * -cc) = (m.rI, stop - k * cc) := by
        ext
        · simp
        · ring
      dsimp only
      rw [column, tracks.free]
      apply castling.path <;> rcases castling.step with rfl | rfl <;> omega
  have rook : Unmoved g pos.turn .rook m.rI stop := ⟨man, castling.still⟩
  obtain ⟨row, column⟩ := tracks.home _ _ _ _ _ ⟨king, castling.unmoved⟩ rook
  obtain ⟨wing, step, corner⟩ : ∃ wing : Wing, cc = wing.step ∧ stop = wing.corner := by
    rcases castling.step with rfl | rfl
    · exact ⟨.kingside, rfl, by simp only [Wing.corner]; omega⟩
    · exact ⟨.queenside, rfl, by simp only [Wing.corner]; omega⟩
  refine ⟨wing, (tracks.rights _ _).mpr ⟨?_, ?_⟩, ⟨row, column⟩, step, corner⟩
  · rw [← row, ← column]
    exact ⟨king, castling.unmoved⟩
  · rw [← row, ← corner]
    exact rook

/-- Where the rules grant the right and the path is free, the engine finds the rook. -/
theorem Tracks.castling_of_right (tracks : Tracks g pos) {wing : Wing}
    (right : pos.rights pos.turn wing) (source : m.ply.source = (pos.turn.homeRow, 4))
    (target : m.ply.target = (pos.turn.homeRow, 4 + 2 * wing.step))
    (path : ∀ c, 0 < (c - 4) * wing.step → 0 < (wing.corner - c) * wing.step →
      pos.board (pos.turn.homeRow, c) = none) : Castling g m wing.step wing.corner := by
  obtain ⟨king, rook⟩ := (tracks.rights _ _).mp right
  obtain ⟨row, column⟩ : m.rI = pos.turn.homeRow ∧ m.cI = 4 := Prod.mk.inj source
  obtain ⟨row', column'⟩ : m.rF = pos.turn.homeRow ∧ m.cF = 4 + 2 * wing.step :=
    Prod.mk.inj target
  refine ⟨?_, row'.trans row.symm, ?_, ?_, ?_, ?_, ?_, ?_⟩
  · cases wing <;> decide
  · rw [column', column, mul_comm]
  · rw [row, column]
    exact king.2
  · rw [column]
    cases wing <;> decide
  · intro x first second
    rw [column] at first
    rw [row]
    exact (tracks.free _ _).mp (path x first second)
  · rw [row]
    exact (man_eq_some.mp rook.1).1
  · rw [row]
    exact rook.2

/-- The squares of a castling, attacked in the engine's sense and in that of the rules. -/
theorem Tracks.struck (tracks : Tracks g pos) {r c : Int}
    (own : (g.get r c).type = .empty ∨ (g.get r c).player = getPlayer g) :
    Struck g r c (getPlayer g) ↔ Attacked pos.board pos.turn.other (r, c) := by
  rw [tracks.turn] at own ⊢
  rw [tracks.board]
  exact tracks.known.struck own

/-- Only a king castles. -/
theorem Tracks.castles_none (tracks : Tracks g pos) (kind : (g.get m.rI m.cI).type ≠ .king) :
    pos.castles m.ply = none := by
  refine if_neg fun king => kind ?_
  exact (man_eq_some.mp ((tracks.get _ _).symm.trans king)).1

/-- A king that goes to a neighbouring column does not castle. -/
theorem castles_near (near : (m.cF - m.cI).natAbs ≤ 1) : pos.castles m.ply = none := by
  have right : ¬ m.ply.target.2 = m.ply.source.2 + 2 := by
    show ¬ m.cF = m.cI + 2
    omega
  have left : ¬ m.ply.target.2 = m.ply.source.2 - 2 := by
    show ¬ m.cF = m.cI - 2
    omega
  unfold Position.castles
  rw [if_neg right, if_neg left, ite_self]

/-- Only a pawn takes a man on another square. -/
theorem Tracks.casualty_none (tracks : Tracks g pos) (kind : (g.get m.rI m.cI).type ≠ .pawn) :
    pos.casualty m.ply = none := by
  refine if_neg fun pawn => kind ?_
  exact (man_eq_some.mp ((tracks.get _ _).symm.trans pawn.1)).1

/-- An officer that strikes its target moves as the men do, and does not castle. -/
theorem Tracks.pseudo_officer (tracks : Tracks g pos) (mine : Mine g m (getPlayer g))
    (kind : (g.get m.rI m.cI).type ≠ .pawn) (hit : strikes g m.rI m.cI m.rF m.cF = true) :
    pos.Pseudo m.ply ∧ pos.castles m.ply = none := by
  obtain ⟨kind', own, type⟩ := tracks.mover mine
  obtain ⟨-, -, -, free⟩ := tracks.mine_iff.mp mine
  have reaches : Reaches pos.board ⟨pos.turn, kind'⟩ m.ply.source m.ply.target := by
    rw [tracks.board]
    exact (tracks.known.strikes mine.away ((tracks.get _ _).symm.trans own)).mp hit
  refine ⟨.officer own ?_ reaches free, ?_⟩
  · rintro rfl
    exact kind type
  · by_cases king : kind' = .king
    · subst king
      exact castles_near reaches.2.2
    · apply tracks.castles_none
      rw [type]
      exact fun h => king (typeOf_inj.mp h)

/-- Castling that passes is castling by the rules. -/
theorem Tracks.pseudo_castle (tracks : Tracks g pos) {cc stop : Int} (mine : Mine g m (getPlayer g))
    (kind : (g.get m.rI m.cI).type = .king) (castling : Castling g m cc stop)
    (empty : (g.get m.rF m.cF).type = .empty) (safe : ¬ Struck g m.rI m.cI (getPlayer g))
    (passing : ¬ Struck g m.rI (m.cI + cc) (getPlayer g))
    (arriving : ¬ Struck g m.rI (m.cI + cc * 2) (getPlayer g)) :
    ∃ wing : Wing, pos.Pseudo m.ply ∧ pos.castles m.ply = some wing ∧ stop = wing.corner ∧
      cc = wing.step := by
  have middle := castling.passing_empty tracks.sound.home mine.onS mine.onT
  have row := castling.row
  have two := castling.two
  have safe := mt (tracks.struck (Or.inr mine.owner)).mpr safe
  have passing := mt (tracks.struck (Or.inl middle)).mpr passing
  have arriving := mt (tracks.struck (Or.inl (by rw [← row, ← two]; exact empty))).mpr arriving
  obtain ⟨wing, right, ⟨home, column⟩, rfl, rfl⟩ := tracks.right_of_castling mine kind castling safe
  obtain ⟨king, rook⟩ := tracks.wf.rights _ _ right
  have source : m.ply.source = (pos.turn.homeRow, 4) := Prod.ext home column
  have target : m.ply.target = (pos.turn.homeRow, 4 + 2 * wing.step) :=
    Prod.ext (row.trans home) (by show m.cF = _; rw [two, column, mul_comm])
  refine ⟨wing, .castle wing right (by rw [source]; exact king) rook source target ?_ ?_, ?_,
    rfl, rfl⟩
  · intro c first second
    have := castling.path c (by rw [column]; exact first) second
    rw [home] at this
    exact (tracks.free _ _).mpr this
  · intro k low high
    rw [home, column] at passing arriving
    rw [show ((m.rI, m.cI) : Square) = (pos.turn.homeRow, 4) from source] at safe
    obtain rfl | rfl | rfl : k = 0 ∨ k = 1 ∨ k = 2 := by omega
    · simpa using safe
    · simpa using passing
    · rwa [mul_comm] at arriving
  · unfold Position.castles
    rw [if_pos (by rw [source]; exact king), source, target]
    cases wing <;> simp [Wing.step]

/-- A verdict that passes names a move of the men, and the extra effects the rules name. -/
theorem Tracks.pseudo (tracks : Tracks g pos) {v : Verdict}
    (judged : Judged g m (getPlayer g) v) (ok : 0 ≤ v.code) :
    pos.Pseudo m.ply ∧ v.captured = pos.casualty m.ply ∧
      v.rook = (pos.castles m.ply).map fun wing => (wing.corner, m.cI + wing.step) := by
  cases judged with
  | refused | unpromoted | stopped => simp [Verdict.plain, illegalMove, missingPromotion] at ok
  | officer mine kind hit =>
    obtain ⟨pseudo, stays⟩ := tracks.pseudo_officer mine kind hit
    exact ⟨pseudo, (tracks.casualty_none kind).symm, by rw [stays]; rfl⟩
  | pawn mine kind goes early =>
    have owner := mine.owner.trans tracks.turn
    have promotion : pos.Promotion m.ply := fun last => absurd ((lastRow_iff owner).mpr last) early
    obtain ⟨pseudo, captured⟩ := (tracks.pawnGoes_iff mine kind promotion).mp goes
    exact ⟨pseudo, captured, by rw [tracks.castles_none (by rw [kind]; decide)]; rfl⟩
  | promoted mine kind goes last named =>
    have promotion : pos.Promotion m.ply := fun _ => isPromotion_iff.mp named
    obtain ⟨pseudo, captured⟩ := (tracks.pawnGoes_iff mine kind promotion).mp goes
    exact ⟨pseudo, captured, by rw [tracks.castles_none (by rw [kind]; decide)]; rfl⟩
  | @castled cc stop mine kind castling empty safe passing arriving =>
    obtain ⟨wing, pseudo, castles, rfl, rfl⟩ :=
      tracks.pseudo_castle mine kind castling empty safe passing arriving
    have placed : (m.rI : Int) ≠ -1 := by
      have := mine.onS.1
      omega
    refine ⟨pseudo, (tracks.casualty_none (by rw [kind]; decide)).symm, ?_⟩
    rw [castles]
    simp [Verdict.rook, placed]

/-- A king that castles by the rules does not pass an attacked square. -/
theorem Tracks.not_stopped (tracks : Tracks g pos) (pseudo : pos.Pseudo m.ply) {cc stop : Int}
    {after : Game} (mine : Mine g m (getPlayer g)) (kind : (g.get m.rI m.cI).type = .king)
    (castling : Castling g m cc stop) : ¬ Stopped g m.rI m.cI cc (getPlayer g) after := by
  intro stopped
  have row := castling.row
  have two := castling.two
  have own : pos.board m.ply.source = some ⟨pos.turn, .king⟩ :=
    (tracks.get _ _).trans (man_eq_some.mpr ⟨kind, mine.owner.trans tracks.turn⟩)
  cases pseudo with
  | officer own' notPawn reaches =>
    rw [own] at own'
    cases own'
    have near : (m.cF - m.cI).natAbs ≤ 1 := reaches.2.2
    rcases castling.step with rfl | rfl <;> omega
  | single own' | double own' | takes own' | enPassant own' =>
    rw [own] at own'
    cases own'
  | castle wing right king rook source target path safe =>
    obtain ⟨home, column⟩ : m.rI = pos.turn.homeRow ∧ m.cI = 4 := Prod.mk.inj source
    obtain ⟨-, column'⟩ : m.rF = pos.turn.homeRow ∧ m.cF = 4 + 2 * wing.step := Prod.mk.inj target
    obtain rfl : cc = wing.step := by omega
    have middle := castling.passing_empty tracks.sound.home mine.onS mine.onT
    have free : (g.get m.rI (m.cI + wing.step * 2)).type = .empty := by
      rw [← row, ← two]
      exact (tracks.free _ _).mp (Position.castle_target_free target path)
    have squares : ∀ k, 0 ≤ k → k ≤ 2 →
        ¬ Attacked pos.board pos.turn.other (m.rI, m.cI + k * wing.step) := by
      rw [home, column]
      exact safe
    cases stopped with
    | first hit =>
      have struck := struck_iff.mpr ⟨_, _, hit⟩
      rw [tracks.struck (Or.inr mine.owner)] at struck
      exact squares 0 (by decide) (by decide) (by simpa using struck)
    | second _ hit =>
      have struck := struck_iff.mpr ⟨_, _, hit⟩
      rw [tracks.struck (Or.inl middle)] at struck
      exact squares 1 (by decide) (by decide) (by simpa using struck)
    | third _ _ hit =>
      have struck := struck_iff.mpr ⟨_, _, hit⟩
      rw [tracks.struck (Or.inl free), mul_comm] at struck
      exact squares 2 (by decide) (by decide) struck

/-- A move of the men passes. -/
theorem Tracks.judged (tracks : Tracks g pos) (insideS : Inside m.ply.source)
    (insideT : Inside m.ply.target) (pseudo : pos.Pseudo m.ply) {v : Verdict}
    (judged : Judged g m (getPlayer g) v) : 0 ≤ v.code := by
  cases judged with
  | officer | pawn | promoted | castled => exact le_rfl
  | refused fails =>
    exfalso
    have mine : Mine g m (getPlayer g) :=
      tracks.mine_iff.mpr ⟨insideS, insideT, pseudo.own, pseudo.free⟩
    have pawn : pos.board m.ply.source = some ⟨pos.turn, .pawn⟩ → False := by
      intro own
      have kind := (man_eq_some.mp ((tracks.get _ _).symm.trans own)).1
      exact fails ⟨mine, Or.inr (Or.inl ⟨kind, _,
        (tracks.pawnGoes_iff mine kind (pseudo.promotion own)).mpr ⟨pseudo, rfl⟩⟩)⟩
    cases pseudo with
    | officer own notPawn reaches free =>
      have man := (tracks.get _ _).symm.trans own
      refine fails ⟨mine, Or.inl ⟨?_, (tracks.known.strikes mine.away man).mpr ?_⟩⟩
      · rw [(man_eq_some.mp man).1]
        exact fun h => notPawn (typeOf_inj (b := .pawn) |>.mp h)
      · rw [← tracks.board]
        exact reaches
    | single own | double own | takes own | enPassant own => exact pawn own
    | castle wing right king rook source target path safe =>
      have kind := (man_eq_some.mp ((tracks.get _ _).symm.trans king)).1
      exact fails ⟨mine, Or.inr (Or.inr ⟨kind, _, _,
        tracks.castling_of_right right source target path⟩)⟩
  | unpromoted mine kind goes last unnamed =>
    exfalso
    have owner := mine.owner.trans tracks.turn
    have own : pos.board m.ply.source = some ⟨pos.turn, .pawn⟩ :=
      (tracks.get _ _).trans (man_eq_some.mpr ⟨kind, owner⟩)
    have named := isPromotion_iff.mpr (pseudo.promotion own ((lastRow_iff owner).mp last))
    rw [unnamed] at named
    cases named
  | stopped mine kind castling stopped =>
    exact absurd stopped (tracks.not_stopped pseudo mine kind castling)

end Pseudo

end Chessh
