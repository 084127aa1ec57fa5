import Chessh.Rules.Contest
import Chessh.Rules.Fen

/-!
# The board from the other side

Chess knows no colours: with the rows counted from the other side and the sides exchanged, a
position has the same moves. What is turned twice is as it was.
-/

namespace Rules

namespace Side

/-- Pawns of the two sides go opposite ways. -/
theorem other_forward (side : Side) : side.other.forward = -side.forward := by
  cases side <;> rfl

/-- The home rows are opposite. -/
theorem other_homeRow (side : Side) : side.other.homeRow = 7 - side.homeRow := by
  cases side <;> rfl

/-- The rows that pawns start from are opposite. -/
theorem other_pawnRow (side : Side) : side.other.pawnRow = 7 - side.pawnRow := by
  cases side <;> rfl

/-- The last rows are opposite. -/
theorem other_lastRow (side : Side) : side.other.lastRow = 7 - side.lastRow := by
  cases side <;> rfl

/-- The rows of double steps are opposite. -/
theorem other_doubleRow (side : Side) : side.other.doubleRow = 7 - side.doubleRow := by
  cases side <;> rfl

end Side

/-! ## Squares, men and placements -/

/-- A square, counted from the other side. -/
def mirrorSquare (s : Square) : Square := (7 - s.1, s.2)

/-- The man of the other side. -/
def Man.mirror (man : Man) : Man := ⟨man.side.other, man.kind⟩

/-- A placement from the other side. -/
def mirrorBoard (p : Placement) : Placement := fun s => (p (mirrorSquare s)).map Man.mirror

/-- Turned twice. -/
@[simp] theorem mirrorSquare_mirrorSquare (s : Square) : mirrorSquare (mirrorSquare s) = s := by
  ext <;> simp [mirrorSquare]

/-- Turned twice. -/
@[simp] theorem Man.mirror_mirror (man : Man) : man.mirror.mirror = man := by
  simp [Man.mirror]

/-- Turned twice. -/
@[simp] theorem mirrorBoard_mirrorBoard (p : Placement) : mirrorBoard (mirrorBoard p) = p := by
  funext s
  simp [mirrorBoard, Function.comp_def]

/-- No square is turned onto two. -/
theorem mirrorSquare_inj {s t : Square} : mirrorSquare s = mirrorSquare t ↔ s = t :=
  (Function.LeftInverse.injective mirrorSquare_mirrorSquare).eq_iff

/-- What is turned is on the board. -/
theorem inside_mirrorSquare {s : Square} : Inside (mirrorSquare s) ↔ Inside s := by
  unfold Inside mirrorSquare
  dsimp only
  omega

section Boards

variable {p : Placement} {s t : Square} {side : Side} {kind : Kind} {man : Man}
  {directions : List (Int × Int)}

/-- What stands on a turned square. -/
@[simp] theorem mirrorBoard_mirrorSquare (p : Placement) (s : Square) :
    mirrorBoard p (mirrorSquare s) = (p s).map Man.mirror := by
  rw [mirrorBoard, mirrorSquare_mirrorSquare]

/-- A man stands there when that of the other side stands here. -/
theorem mirrorBoard_some : mirrorBoard p (mirrorSquare s) = some ⟨side.other, kind⟩ ↔
    p s = some ⟨side, kind⟩ := by
  rw [mirrorBoard_mirrorSquare, Option.map_eq_some_iff]
  constructor
  · rintro ⟨man, there, same⟩
    rw [there, ← Man.mirror_mirror man, same]
    simp [Man.mirror]
  · exact fun there => ⟨_, there, rfl⟩

/-- A man stands there when that of the other side stands here. -/
theorem mirrorBoard_man : mirrorBoard p s = some ⟨side, kind⟩ ↔
    p (mirrorSquare s) = some ⟨side.other, kind⟩ := by
  have turned := @mirrorBoard_some p (mirrorSquare s) side.other kind
  rwa [mirrorSquare_mirrorSquare, Side.other_other] at turned

/-- A square is free when the turned one is. -/
theorem mirrorBoard_none : mirrorBoard p (mirrorSquare s) = none ↔ p s = none := by
  rw [mirrorBoard_mirrorSquare, Option.map_eq_none_iff]

/-- Sliding, where the directions may be turned. -/
theorem Slides.mirror (closed : ∀ d ∈ directions, (-d.1, d.2) ∈ directions)
    (slides : Slides p directions s t) :
    Slides (mirrorBoard p) directions (mirrorSquare s) (mirrorSquare t) := by
  obtain ⟨d, mem, n, pos, rfl, free⟩ := slides
  have along : ∀ k : Nat, ((mirrorSquare s).1 + k * -d.1, (mirrorSquare s).2 + k * d.2) =
      mirrorSquare (s.1 + k * d.1, s.2 + k * d.2) := by
    intro k
    ext
    · simp only [mirrorSquare]
      ring
    · rfl
  refine ⟨(-d.1, d.2), closed d mem, n, pos, (along n).symm, fun k low high => ?_⟩
  rw [along k, mirrorBoard_none]
  exact free k low high

/-- Reaching a square. -/
theorem Reaches.mirror (reaches : Reaches p man s t) :
    Reaches (mirrorBoard p) man.mirror (mirrorSquare s) (mirrorSquare t) := by
  obtain ⟨side, kind⟩ := man
  cases kind with
  | king =>
    obtain ⟨apart, row, column⟩ := reaches
    refine ⟨mt mirrorSquare_inj.mp apart, ?_, column⟩
    simp only [mirrorSquare]
    omega
  | queen => exact Slides.mirror (by decide) reaches
  | rook => exact Slides.mirror (by decide) reaches
  | bishop => exact Slides.mirror (by decide) reaches
  | knight =>
    have leap : ((t.1 - s.1).natAbs = 1 ∧ (t.2 - s.2).natAbs = 2) ∨
        ((t.1 - s.1).natAbs = 2 ∧ (t.2 - s.2).natAbs = 1) := reaches
    show ((7 - t.1 - (7 - s.1)).natAbs = 1 ∧ (t.2 - s.2).natAbs = 2) ∨
      ((7 - t.1 - (7 - s.1)).natAbs = 2 ∧ (t.2 - s.2).natAbs = 1)
    omega
  | pawn =>
    obtain ⟨row, column⟩ : t.1 = s.1 + side.forward ∧ (t.2 - s.2).natAbs = 1 := reaches
    refine ⟨?_, column⟩
    show 7 - t.1 = 7 - s.1 + side.other.forward
    rw [Side.other_forward]
    omega

/-- An attack. -/
theorem Attacked.mirror (attacked : Attacked p side t) :
    Attacked (mirrorBoard p) side.other (mirrorSquare t) := by
  obtain ⟨s, kind, there, reaches⟩ := attacked
  exact ⟨mirrorSquare s, kind, mirrorBoard_some.mpr there, reaches.mirror⟩

/-- An attack. -/
theorem attacked_mirror :
    Attacked (mirrorBoard p) side.other (mirrorSquare t) ↔ Attacked p side t := by
  refine ⟨fun attacked => ?_, Attacked.mirror⟩
  have back := attacked.mirror
  rwa [mirrorBoard_mirrorBoard, mirrorSquare_mirrorSquare, Side.other_other] at back

/-- A check. -/
theorem InCheck.mirror (check : InCheck p side) : InCheck (mirrorBoard p) side.other := by
  obtain ⟨s, there, attacked⟩ := check
  exact ⟨mirrorSquare s, mirrorBoard_some.mpr there, attacked.mirror⟩

/-- A check. -/
theorem inCheck_mirror : InCheck (mirrorBoard p) side.other ↔ InCheck p side := by
  refine ⟨fun check => ?_, InCheck.mirror⟩
  have back := check.mirror
  rwa [mirrorBoard_mirrorBoard, Side.other_other] at back

end Boards

/-! ## Positions and moves -/

/-- A move from the other side. -/
def Ply.mirror (m : Ply) : Ply := ⟨mirrorSquare m.source, mirrorSquare m.target, m.promotion⟩

/-- Turned twice. -/
@[simp] theorem Ply.mirror_mirror (m : Ply) : m.mirror.mirror = m := by
  simp [Ply.mirror]

/-- Touching a square. -/
theorem Ply.touches_mirror {m : Ply} {s : Square} :
    m.mirror.Touches (mirrorSquare s) ↔ m.Touches s := by
  simp only [Ply.Touches, Ply.mirror, mirrorSquare_inj]

namespace Position

variable {pos : Position} {m : Ply} {side : Side} {kind : Kind}

/-- A position from the other side. -/
def mirror (pos : Position) : Position where
  board := mirrorBoard pos.board
  turn := pos.turn.other
  rights side wing := pos.rights side.other wing
  passing := pos.passing

/-- Turned twice. -/
@[simp] theorem mirror_mirror (pos : Position) : pos.mirror.mirror = pos := by
  obtain ⟨board, turn, rights, passing⟩ := pos
  simp [mirror]

/-- The squares of the side to move. -/
theorem own_mirror (s : Square) : pos.mirror.Own (mirrorSquare s) ↔ pos.Own s :=
  exists_congr fun _ => mirrorBoard_some

/-- The last row. -/
theorem mirror_lastRow : (mirrorSquare m.target).1 = pos.turn.other.lastRow ↔
    m.target.1 = pos.turn.lastRow := by
  rw [Side.other_lastRow]
  simp only [mirrorSquare]
  omega

/-- A promotion. -/
theorem promotion_mirror : pos.mirror.Promotion m.mirror ↔ pos.Promotion m :=
  imp_congr mirror_lastRow Iff.rfl

/-- What is ahead of a side is ahead of the other one when the board is turned. -/
theorem mirrorSquare_ahead (side : Side) (row column n : Int) :
    mirrorSquare (row + n * side.forward, column) =
      (7 - row + n * side.other.forward, column) := by
  rw [Side.other_forward]
  ext
  · simp only [mirrorSquare]
    ring
  · rfl

/-- A move of a man. -/
theorem Pseudo.mirror (pseudo : pos.Pseudo m) : pos.mirror.Pseudo m.mirror := by
  have square : ∀ {row column : Int}, ((7 - row, column) : Square) = mirrorSquare (row, column) :=
    fun {_ _} => rfl
  cases pseudo with
  | officer own notPawn reaches free =>
    exact .officer (mirrorBoard_some.mpr own) notPawn reaches.mirror (mt (own_mirror _).mp free)
  | single own ahead clear promotion =>
    refine .single (mirrorBoard_some.mpr own) ?_ (mirrorBoard_none.mpr clear)
      (promotion_mirror.mpr promotion)
    show mirrorSquare m.target = (7 - m.source.1 + pos.turn.other.forward, m.source.2)
    have turned := mirrorSquare_ahead pos.turn m.source.1 m.source.2 1
    rwa [one_mul, one_mul, ← ahead] at turned
  | double own start ahead jumped clear =>
    refine .double (mirrorBoard_some.mpr own) ?_ ?_ ?_ (mirrorBoard_none.mpr clear)
    · show 7 - m.source.1 = pos.turn.other.pawnRow
      rw [start, Side.other_pawnRow]
    · show mirrorSquare m.target = (7 - m.source.1 + 2 * pos.turn.other.forward, m.source.2)
      rw [ahead]
      exact mirrorSquare_ahead pos.turn m.source.1 m.source.2 2
    · show mirrorBoard pos.board (7 - m.source.1 + pos.turn.other.forward, m.source.2) = none
      have turned := mirrorSquare_ahead pos.turn m.source.1 m.source.2 1
      rw [one_mul, one_mul] at turned
      rw [← turned, mirrorBoard_none]
      exact jumped
  | takes own reaches foe promotion =>
    obtain ⟨kind, there⟩ := foe
    exact .takes (mirrorBoard_some.mpr own) reaches.mirror ⟨kind, mirrorBoard_some.mpr there⟩
      (promotion_mirror.mpr promotion)
  | enPassant own reaches row passing clear =>
    refine .enPassant (mirrorBoard_some.mpr own) reaches.mirror ?_ passing
      (mirrorBoard_none.mpr clear)
    show 7 - m.source.1 = pos.turn.other.other.doubleRow
    rw [row]
    exact (Side.other_doubleRow _).symm
  | castle wing right king rook source target path safe =>
    have row : pos.turn.other.homeRow = 7 - pos.turn.homeRow := Side.other_homeRow _
    refine .castle wing ?_ (mirrorBoard_some.mpr king) ?_ ?_ ?_ ?_ ?_
    · show pos.rights pos.turn.other.other wing
      rwa [Side.other_other]
    · show mirrorBoard pos.board (pos.turn.other.homeRow, wing.corner) =
        some ⟨pos.turn.other, .rook⟩
      rw [row, square]
      exact mirrorBoard_some.mpr rook
    · show mirrorSquare m.source = (pos.turn.other.homeRow, 4)
      rw [source, row]
      rfl
    · show mirrorSquare m.target = (pos.turn.other.homeRow, 4 + 2 * wing.step)
      rw [target, row]
      rfl
    · intro c low high
      show mirrorBoard pos.board (pos.turn.other.homeRow, c) = none
      rw [row, square, mirrorBoard_none]
      exact path c low high
    · intro k low high
      show ¬ Attacked (mirrorBoard pos.board) pos.turn.other.other
        (pos.turn.other.homeRow, 4 + k * wing.step)
      rw [row, square, attacked_mirror]
      exact safe k low high

/-- A move of a man. -/
theorem pseudo_mirror : pos.mirror.Pseudo m.mirror ↔ pos.Pseudo m := by
  refine ⟨fun pseudo => ?_, Pseudo.mirror⟩
  have back := pseudo.mirror
  rwa [mirror_mirror, Ply.mirror_mirror] at back

/-- The man that arrives. -/
theorem arrives_mirror : pos.mirror.arrives m.mirror = (pos.arrives m).map Man.mirror := by
  have condition : (pos.mirror.board m.mirror.source = some ⟨pos.mirror.turn, .pawn⟩ ∧
      m.mirror.target.1 = pos.mirror.turn.lastRow) ↔
      pos.board m.source = some ⟨pos.turn, .pawn⟩ ∧ m.target.1 = pos.turn.lastRow :=
    and_congr mirrorBoard_some mirror_lastRow
  unfold arrives
  by_cases promoted : pos.board m.source = some ⟨pos.turn, .pawn⟩ ∧ m.target.1 = pos.turn.lastRow
  · rw [if_pos (condition.mpr promoted), if_pos promoted, Option.map_map]
    rfl
  · rw [if_neg (mt condition.mp promoted), if_neg promoted]
    exact mirrorBoard_mirrorSquare _ _

/-- The square of a pawn taken in passing. -/
theorem casualty_mirror : pos.mirror.casualty m.mirror = (pos.casualty m).map mirrorSquare := by
  have condition : (pos.mirror.board m.mirror.source = some ⟨pos.mirror.turn, .pawn⟩ ∧
      m.mirror.source.2 ≠ m.mirror.target.2 ∧ pos.mirror.board m.mirror.target = none) ↔
      pos.board m.source = some ⟨pos.turn, .pawn⟩ ∧ m.source.2 ≠ m.target.2 ∧
        pos.board m.target = none :=
    and_congr mirrorBoard_some (and_congr Iff.rfl mirrorBoard_none)
  unfold casualty
  by_cases passing : pos.board m.source = some ⟨pos.turn, .pawn⟩ ∧ m.source.2 ≠ m.target.2 ∧
      pos.board m.target = none
  · rw [if_pos (condition.mpr passing), if_pos passing]
    rfl
  · rw [if_neg (mt condition.mp passing), if_neg passing]
    rfl

/-- The wing to which the king castles. -/
theorem castles_mirror : pos.mirror.castles m.mirror = pos.castles m := by
  have king : pos.mirror.board m.mirror.source = some ⟨pos.mirror.turn, .king⟩ ↔
      pos.board m.source = some ⟨pos.turn, .king⟩ := mirrorBoard_some
  unfold castles
  rw [if_congr king rfl rfl]
  rfl

/-- The placement after a move. -/
theorem boardAfter_mirror : pos.mirror.boardAfter m.mirror = mirrorBoard (pos.boardAfter m) := by
  funext s
  obtain ⟨s, rfl⟩ : ∃ t, s = mirrorSquare t := ⟨mirrorSquare s, (mirrorSquare_mirrorSquare s).symm⟩
  have target : mirrorSquare s = m.mirror.target ↔ s = m.target := mirrorSquare_inj
  have casualty : pos.mirror.casualty m.mirror = some (mirrorSquare s) ↔
    pos.casualty m = some s := by
    rw [casualty_mirror]
    exact (Option.map_injective
      (Function.LeftInverse.injective mirrorSquare_mirrorSquare)).eq_iff' rfl
  have left : (mirrorSquare s = m.mirror.source ∨
        pos.mirror.casualty m.mirror = some (mirrorSquare s)) ↔
      s = m.source ∨ pos.casualty m = some s := or_congr mirrorSquare_inj casualty
  have beside : ∀ column, mirrorSquare s = (m.mirror.source.1, column) ↔ s = (m.source.1, column) :=
    fun column => @mirrorSquare_inj s (m.source.1, column)
  rw [mirrorBoard_mirrorSquare]
  unfold boardAfter
  by_cases arrived : s = m.target
  · rw [if_pos (target.mpr arrived), if_pos arrived, arrives_mirror]
  rw [if_neg (mt target.mp arrived), if_neg arrived]
  by_cases gone : s = m.source ∨ pos.casualty m = some s
  · rw [if_pos (left.mpr gone), if_pos gone]
    rfl
  rw [if_neg (mt left.mp gone), if_neg gone, castles_mirror]
  cases pos.castles m with
  | none => exact mirrorBoard_mirrorSquare _ _
  | some wing =>
    have step : mirrorSquare s = (m.mirror.source.1, m.mirror.source.2 + wing.step) ↔
        s = (m.source.1, m.source.2 + wing.step) := beside _
    dsimp only
    by_cases rook : s = (m.source.1, m.source.2 + wing.step)
    · rw [if_pos (step.mpr rook), if_pos rook]
      exact mirrorBoard_mirrorSquare pos.board (m.source.1, wing.corner)
    rw [if_neg (mt step.mp rook), if_neg rook]
    by_cases corner : s = (m.source.1, wing.corner)
    · rw [if_pos ((beside _).mpr corner), if_pos corner]
      rfl
    · rw [if_neg (mt (beside _).mp corner), if_neg corner]
      exact mirrorBoard_mirrorSquare _ _

/-- The position after a move. -/
theorem play_mirror : pos.mirror.play m.mirror = (pos.play m).mirror := by
  have touches : ∀ (side : Side) column, m.mirror.Touches (side.homeRow, column) ↔
      m.Touches (side.other.homeRow, column) := by
    intro side column
    have same : (side.homeRow, column) = mirrorSquare (side.other.homeRow, column) := by
      rw [mirrorSquare, Side.other_homeRow]
      simp
    rw [same, Ply.touches_mirror]
  have rights : (pos.mirror.play m.mirror).rights = (pos.play m).mirror.rights := by
    funext side wing
    exact propext (and_congr Iff.rfl
      (and_congr (not_congr (touches side _)) (not_congr (touches side _))))
  have double : (pos.mirror.board m.mirror.source = some ⟨pos.mirror.turn, .pawn⟩ ∧
      (m.mirror.target.1 - m.mirror.source.1).natAbs = 2) ↔
      pos.board m.source = some ⟨pos.turn, .pawn⟩ ∧ (m.target.1 - m.source.1).natAbs = 2 := by
    refine and_congr mirrorBoard_some ?_
    simp only [Ply.mirror, mirrorSquare]
    omega
  have passing : (pos.mirror.play m.mirror).passing = (pos.play m).mirror.passing :=
    if_congr double rfl rfl
  exact congr
    (congr (congrArg (Position.mk · pos.turn.other.other) boardAfter_mirror) rights) passing

/-- A legal move. -/
theorem legal_mirror : pos.mirror.Legal m.mirror ↔ pos.Legal m := by
  unfold Legal
  rw [boardAfter_mirror, pseudo_mirror]
  exact and_congr inside_mirrorSquare (and_congr inside_mirrorSquare (and_congr Iff.rfl
    (not_congr inCheck_mirror)))

/-- A side without a move. -/
theorem stuck_mirror : pos.mirror.Stuck ↔ pos.Stuck := by
  refine ⟨fun stuck m legal => stuck m.mirror (legal_mirror.mpr legal), fun stuck m legal => ?_⟩
  have back := @legal_mirror pos m.mirror
  rw [Ply.mirror_mirror] at back
  exact stuck m.mirror (back.mp legal)

/-- A move that says no more than it must. -/
theorem spells_mirror : pos.mirror.Spells m.mirror ↔ pos.Spells m :=
  imp_congr Iff.rfl (and_congr mirrorBoard_some mirror_lastRow)

/-- A sequence of moves. -/
theorem written_mirror {moves : List Ply} :
    pos.mirror.Written (moves.map Ply.mirror) ↔ pos.Written moves := by
  induction moves generalizing pos with
  | nil => exact Iff.rfl
  | cons m rest ih =>
    rw [List.map_cons, Written, Written, play_mirror, ih]
    exact and_congr legal_mirror (and_congr spells_mirror Iff.rfl)

/-- No side has more sequences of moves than the other one in its place. -/
theorem ncard_written_mirror (pos : Position) (d : Nat) :
    {moves | moves.length = d ∧ pos.mirror.Written moves}.ncard =
      {moves | moves.length = d ∧ pos.Written moves}.ncard := by
  have image : {moves | moves.length = d ∧ pos.mirror.Written moves} =
      List.map Ply.mirror '' {moves | moves.length = d ∧ pos.Written moves} := by
    ext moves
    constructor
    · rintro ⟨length, written⟩
      have back : (moves.map Ply.mirror).map Ply.mirror = moves := by simp [Function.comp_def]
      exact ⟨moves.map Ply.mirror, ⟨(List.length_map _).trans length,
        written_mirror.mp (back.symm ▸ written)⟩, back⟩
    · rintro ⟨others, ⟨length, written⟩, rfl⟩
      exact ⟨(List.length_map _).trans length, written_mirror.mpr written⟩
  rw [image, Set.ncard_image_of_injective]
  exact (Function.LeftInverse.injective Ply.mirror_mirror).list_map

/-- A position of a game. -/
theorem WellFormed.mirror (wf : pos.WellFormed) : pos.mirror.WellFormed := by
  have home : ∀ (side : Side) column,
      mirrorSquare (side.homeRow, column) = (side.other.homeRow, column) :=
    fun side column => Prod.ext (Side.other_homeRow side).symm rfl
  refine ⟨fun s man there => ?_, fun side => ?_, fun side s t here there => ?_, ?_,
    fun side wing right => ?_,
    fun c double => ?_, fun s side pawn => ?_⟩
  · obtain ⟨man, there, -⟩ := Option.map_eq_some_iff.mp there
    exact inside_mirrorSquare.mp (wf.inside _ _ there)
  · obtain ⟨s, there⟩ := wf.king side.other
    refine ⟨mirrorSquare s, mirrorBoard_man.mpr ?_⟩
    rwa [mirrorSquare_mirrorSquare]
  · exact mirrorSquare_inj.mp (wf.lone side.other _ _ (mirrorBoard_man.mp here)
      (mirrorBoard_man.mp there))
  · exact mt inCheck_mirror.mp wf.safe
  · obtain ⟨king, rook⟩ := wf.rights side.other wing right
    refine ⟨mirrorBoard_man.mpr ?_, mirrorBoard_man.mpr ?_⟩
    · rwa [home]
    · rwa [home]
  · have there := wf.passing c double
    refine mirrorBoard_man.mpr ?_
    have row : mirrorSquare (pos.turn.other.other.doubleRow, c) =
      (pos.turn.other.doubleRow, c) := by
      refine Prod.ext ?_ rfl
      rw [Side.other_doubleRow]
      exact sub_sub_cancel _ _
    show pos.board (mirrorSquare (pos.turn.other.other.doubleRow, c)) =
      some ⟨pos.turn.other.other.other, .pawn⟩
    rwa [row, Side.other_other]
  · have rows := wf.pawns _ _ (mirrorBoard_man.mp pawn)
    simp only [mirrorSquare] at rows
    omega

end Position

/-! ## Texts -/

/-- The letter of the man of the other side. -/
def mirrorLetter (ch : Char) : Char := ((manOf ch).map fun man => man.mirror.letter).getD ch

/-- The number of a rank of en passant squares, from the other side. -/
def mirrorRank (rank : Char) : Char := if rank = '3' then '6' else '3'

/-- A letter is that of its man. -/
theorem manOf_letter (man : Man) : manOf man.letter = some man := by
  obtain ⟨side, kind⟩ := man
  cases side <;> cases kind <;> decide

/-- What is no letter of a man stays as it is. -/
theorem mirrorLetter_none {ch : Char} (none_ : manOf ch = none) : mirrorLetter ch = ch := by
  rw [mirrorLetter, none_]
  rfl

/-- The man of the letter. -/
theorem manOf_mirrorLetter (ch : Char) : manOf (mirrorLetter ch) = (manOf ch).map Man.mirror := by
  cases found : manOf ch with
  | none => rw [mirrorLetter_none found, found, Option.map_none]
  | some man =>
    rw [mirrorLetter, found, Option.map_some, Option.getD_some, manOf_letter]
    rfl

/-- The squares of a row. -/
theorem rankSquares_mirror (rank : List Char) : rankSquares (rank.map mirrorLetter) =
    (rankSquares rank).map (List.map (Option.map Man.mirror)) := by
  induction rank with
  | nil => rfl
  | cons ch rest ih =>
    rw [List.map_cons, rankSquares, rankSquares, manOf_mirrorLetter, ih]
    cases found : manOf ch with
    | some man =>
      dsimp only [Option.map_some]
      rw [Option.map_map, Option.map_map]
      rfl
    | none =>
      dsimp only [Option.map_none]
      rw [mirrorLetter_none found]
      split
      · rw [Option.map_map, Option.map_map]
        congr 1
        funext squares
        simp
      · rfl

namespace Fen

variable {f : Fen}

/-- The text of the position from the other side. -/
def mirror (f : Fen) : Fen where
  ranks := (f.ranks.map (List.map mirrorLetter)).reverse
  side := f.side.other
  rights := f.rights.map fun right => (right.1.other, right.2)
  passing := f.passing.map fun square => (square.1, mirrorRank square.2)
  clocks := f.clocks

/-- A row. -/
theorem mirror_ranks (eight : f.ranks.length = 8) {i : Nat} (row : i < 8) :
    f.mirror.ranks[i]?.bind rankSquares =
      (f.ranks[7 - i]?.bind rankSquares).map (List.map (Option.map Man.mirror)) := by
  have there : i < (f.ranks.map (List.map mirrorLetter)).length := by rwa [List.length_map, eight]
  have index : (f.ranks.map (List.map mirrorLetter)).length - 1 - i = 7 - i := by
    rw [List.length_map, eight]
  rw [mirror, List.getElem?_reverse there, index, List.getElem?_map]
  cases f.ranks[7 - i]? with
  | none => rfl
  | some rank => exact rankSquares_mirror rank

/-- The men on the board. -/
theorem mirror_board (eight : f.ranks.length = 8) : f.mirror.board = mirrorBoard f.board := by
  funext s
  obtain ⟨r, c⟩ := s
  unfold mirrorBoard board mirrorSquare
  dsimp only
  by_cases column : c < 0
  · rw [if_pos (Or.inr column), if_pos (Or.inr column)]
    rfl
  by_cases above : r < 0
  · have low : f.ranks[(7 - r).toNat]? = none := List.getElem?_eq_none (by omega)
    rw [if_pos (Or.inl above), if_neg (by omega), low]
    rfl
  by_cases below : 8 ≤ r
  · have low : f.mirror.ranks[r.toNat]? = none := by
      refine List.getElem?_eq_none ?_
      rw [mirror, List.length_reverse, List.length_map, eight]
      omega
    rw [if_neg (by omega), if_pos (by omega), low]
    rfl
  have row : (7 - r).toNat = 7 - r.toNat := by omega
  rw [if_neg (by omega), if_neg (by omega), mirror_ranks eight (by omega), row]
  cases f.ranks[7 - r.toNat]?.bind rankSquares with
  | none => rfl
  | some squares =>
    simp only [Option.map_some, Option.bind_some, List.getElem?_map]
    cases squares[c.toNat]? <;> rfl

/-- The rights to castle. -/
theorem mirror_rights {side : Side} {wing : Wing} :
    (side, wing) ∈ f.mirror.rights ↔ (side.other, wing) ∈ f.rights := by
  rw [mirror, List.mem_map]
  constructor
  · rintro ⟨right, member, same⟩
    cases same
    rwa [Side.other_other]
  · exact fun member => ⟨_, member, by rw [Side.other_other]⟩

/-- The position of a text. -/
theorem mirror_position (eight : f.ranks.length = 8) : f.mirror.position = f.position.mirror := by
  have rights : f.mirror.position.rights = f.position.mirror.rights := by
    funext side wing
    exact propext mirror_rights
  have passing : f.mirror.position.passing = f.position.mirror.passing := Option.map_map _ _ _
  exact congr (congr (congrArg (Position.mk · f.side.other) (mirror_board eight)) rights) passing

/-- The text of a position. -/
theorem Valid.mirror (valid : f.Valid) : f.mirror.Valid where
  eight := by rw [Fen.mirror, List.length_reverse, List.length_map, valid.eight]
  rank row listed := by
    obtain ⟨rank, member, rfl⟩ := List.mem_map.mp (List.mem_reverse.mp listed)
    obtain ⟨squares, reads, eight⟩ := valid.rank rank member
    refine ⟨squares.map (Option.map Man.mirror), ?_, (List.length_map _).trans eight⟩
    rw [rankSquares_mirror, reads]
    rfl
  rights right member := by
    have home : ∀ column, mirrorSquare (right.1.homeRow, column) =
      (right.1.other.homeRow, column) :=
      fun column => Prod.ext (Side.other_homeRow right.1).symm rfl
    obtain ⟨king, rook⟩ := valid.rights _ (mirror_rights.mp member)
    rw [mirror_board valid.eight, mirrorBoard_man, mirrorBoard_man, home, home]
    exact ⟨king, rook⟩
  passing file rank named := by
    obtain ⟨square, there, same⟩ := Option.map_eq_some_iff.mp named
    cases same
    refine ⟨(valid.passing _ _ there).1, ?_⟩
    unfold mirrorRank
    split
    · exact Or.inr rfl
    · exact Or.inl rfl
  clocks := valid.clocks

end Fen

end Rules
