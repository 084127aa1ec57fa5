import Chessh.Rules.Board

/-!
# Positions, legal moves and play

A position adds to the placement the side to move, the four castling rights, and the column
of a pawn that has just advanced two rows. A move is legal when it is one of the moves of
its man and leaves its own king safe. The rules are stated the way a player reads them;
`WellFormed` collects what they rely on without saying so.
-/

namespace Rules

/-- The two sides of the board as seen from the king. -/
inductive Wing
  | queenside
  | kingside
  deriving DecidableEq, Repr

namespace Wing

/-- The column of the rook. -/
def corner : Wing → Int
  | queenside => 0
  | kingside => 7

/-- The way the king goes. -/
def step : Wing → Int
  | queenside => -1
  | kingside => 1

end Wing

/-- A position of the game. -/
structure Position where
  /-- Which man stands where. -/
  board : Placement
  /-- The side to move. -/
  turn : Side
  /-- Neither the king of the side nor its rook on that wing has moved. -/
  rights : Side → Wing → Prop
  /-- The column of the pawn that made a double step on the last move. -/
  passing : Option Int

/-- A move as a player names it. -/
structure Ply where
  /-- The square a man leaves. -/
  source : Square
  /-- The square it goes to. -/
  target : Square
  /-- What a pawn becomes on its last row. -/
  promotion : Option Kind

/-- The move leaves or reaches the square. -/
def Ply.Touches (m : Ply) (s : Square) : Prop := m.source = s ∨ m.target = s

/-- The kinds a pawn may become. -/
def Kind.Promotes (kind : Kind) : Prop :=
  kind = .queen ∨ kind = .rook ∨ kind = .bishop ∨ kind = .knight

namespace Position

variable (pos : Position) (m : Ply)

/-- One of the men to move stands on the square. -/
def Own (s : Square) : Prop := ∃ kind, pos.board s = some ⟨pos.turn, kind⟩

/-- A pawn that reaches its last row is promoted. -/
def Promotion : Prop :=
  m.target.1 = pos.turn.lastRow → ∃ kind, m.promotion = some kind ∧ kind.Promotes

/-- The moves of the men, whether or not they leave the king safe. -/
inductive Pseudo : Prop
  /-- An officer goes to a square it attacks. -/
  | officer {kind : Kind} (own : pos.board m.source = some ⟨pos.turn, kind⟩)
      (notPawn : kind ≠ .pawn) (reaches : Reaches pos.board ⟨pos.turn, kind⟩ m.source m.target)
      (free : ¬ pos.Own m.target)
  /-- A pawn advances one row. -/
  | single (own : pos.board m.source = some ⟨pos.turn, .pawn⟩)
      (ahead : m.target = (m.source.1 + pos.turn.forward, m.source.2))
      (clear : pos.board m.target = none) (promotion : pos.Promotion m)
  /-- A pawn advances two rows from its start row. -/
  | double (own : pos.board m.source = some ⟨pos.turn, .pawn⟩)
      (start : m.source.1 = pos.turn.pawnRow)
      (ahead : m.target = (m.source.1 + 2 * pos.turn.forward, m.source.2))
      (jumped : pos.board (m.source.1 + pos.turn.forward, m.source.2) = none)
      (clear : pos.board m.target = none)
  /-- A pawn takes. -/
  | takes (own : pos.board m.source = some ⟨pos.turn, .pawn⟩)
      (reaches : Reaches pos.board ⟨pos.turn, .pawn⟩ m.source m.target)
      (foe : ∃ kind, pos.board m.target = some ⟨pos.turn.other, kind⟩)
      (promotion : pos.Promotion m)
  /-- A pawn takes, in passing, the pawn that has just advanced two rows. -/
  | enPassant (own : pos.board m.source = some ⟨pos.turn, .pawn⟩)
      (reaches : Reaches pos.board ⟨pos.turn, .pawn⟩ m.source m.target)
      (row : m.source.1 = pos.turn.other.doubleRow) (passing : pos.passing = some m.target.2)
      (clear : pos.board m.target = none)
  /-- The king castles: it goes two columns towards a rook, neither has moved, nothing stands
  between them, and no square the king starts from, passes or reaches is attacked. -/
  | castle (wing : Wing) (right : pos.rights pos.turn wing)
      (king : pos.board m.source = some ⟨pos.turn, .king⟩)
      (rook : pos.board (pos.turn.homeRow, wing.corner) = some ⟨pos.turn, .rook⟩)
      (source : m.source = (pos.turn.homeRow, 4))
      (target : m.target = (pos.turn.homeRow, 4 + 2 * wing.step))
      (path : ∀ c, 0 < (c - 4) * wing.step → 0 < (wing.corner - c) * wing.step →
        pos.board (pos.turn.homeRow, c) = none)
      (safe : ∀ k, 0 ≤ k → k ≤ 2 →
        ¬ Attacked pos.board pos.turn.other (pos.turn.homeRow, 4 + k * wing.step))

/-- The man that arrives. -/
def arrives : Option Man :=
  if pos.board m.source = some ⟨pos.turn, .pawn⟩ ∧ m.target.1 = pos.turn.lastRow then
    m.promotion.map (Man.mk pos.turn)
  else pos.board m.source

/-- The square of a pawn taken in passing. -/
def casualty : Option Square :=
  if pos.board m.source = some ⟨pos.turn, .pawn⟩ ∧ m.source.2 ≠ m.target.2 ∧
      pos.board m.target = none then
    some (m.source.1, m.target.2)
  else none

/-- The wing to which the king castles. -/
def castles : Option Wing :=
  if pos.board m.source = some ⟨pos.turn, .king⟩ then
    if m.target.2 = m.source.2 + 2 then some .kingside
    else if m.target.2 = m.source.2 - 2 then some .queenside
    else none
  else none

/-- A man is taken. -/
def Captures : Prop := pos.board m.target ≠ none ∨ pos.casualty m ≠ none

instance : Decidable (pos.Captures m) := inferInstanceAs (Decidable (_ ∨ _))

/-- A pawn moves. -/
def PawnMove : Prop := pos.board m.source = some ⟨pos.turn, .pawn⟩

instance : Decidable (pos.PawnMove m) := inferInstanceAs (Decidable (_ = _))

/-- The placement after a move. -/
def boardAfter : Placement := fun s =>
  if s = m.target then pos.arrives m
  else if s = m.source ∨ pos.casualty m = some s then none
  else
    match pos.castles m with
    | none => pos.board s
    | some wing =>
      if s = (m.source.1, m.source.2 + wing.step) then pos.board (m.source.1, wing.corner)
      else if s = (m.source.1, wing.corner) then none
      else pos.board s

/-- The position after a move. A right is lost when a move leaves or reaches the square of
the king or of the rook. -/
def play : Position where
  board := pos.boardAfter m
  turn := pos.turn.other
  rights side wing := pos.rights side wing ∧ ¬ m.Touches (side.homeRow, 4) ∧
    ¬ m.Touches (side.homeRow, wing.corner)
  passing :=
    if pos.board m.source = some ⟨pos.turn, .pawn⟩ ∧ (m.target.1 - m.source.1).natAbs = 2 then
      some m.target.2
    else none

/-- The standard notion of a legal move. -/
def Legal : Prop :=
  Inside m.source ∧ Inside m.target ∧ pos.Pseudo m ∧ ¬ InCheck (pos.boardAfter m) pos.turn

/-- What every position of a game satisfies. -/
structure WellFormed : Prop where
  /-- The men stand on the board. -/
  inside : ∀ s man, pos.board s = some man → Inside s
  /-- Each side has a king. -/
  king : ∀ side, ∃ s, pos.board s = some ⟨side, .king⟩
  /-- Neither side has two. -/
  lone : ∀ side s t, pos.board s = some ⟨side, .king⟩ → pos.board t = some ⟨side, .king⟩ → s = t
  /-- The side that has just moved is not in check. -/
  safe : ¬ InCheck pos.board pos.turn.other
  /-- A right to castle means that king and rook are at home. -/
  rights : ∀ side wing, pos.rights side wing →
    pos.board (side.homeRow, 4) = some ⟨side, .king⟩ ∧
      pos.board (side.homeRow, wing.corner) = some ⟨side, .rook⟩
  /-- The pawn that may be taken in passing is there. -/
  passing : ∀ c, pos.passing = some c →
    pos.board (pos.turn.other.doubleRow, c) = some ⟨pos.turn.other, .pawn⟩
  /-- No pawn stands on an outer row. -/
  pawns : ∀ s side, pos.board s = some ⟨side, .pawn⟩ → s.1 ≠ 0 ∧ s.1 ≠ 7

/-! ## The placement after a move -/

section After

variable {pos : Position} {m : Ply}

/-- After a move that is no double step of a pawn nothing can be taken in passing. -/
theorem quiet_play (single : ¬ (pos.PawnMove m ∧ (m.target.1 - m.source.1).natAbs = 2)) :
    (pos.play m).passing = none := if_neg single

/-- The man that moves belongs to the side to move. -/
theorem Pseudo.own (pseudo : pos.Pseudo m) : pos.Own m.source := by
  cases pseudo with
  | officer own | single own | double own | takes own | enPassant own => exact ⟨_, own⟩
  | castle wing right king => exact ⟨_, king⟩

/-- The square a castling king reaches is free. -/
theorem castle_target_free {wing : Wing}
    (target : m.target = (pos.turn.homeRow, 4 + 2 * wing.step))
    (path : ∀ c, 0 < (c - 4) * wing.step → 0 < (wing.corner - c) * wing.step →
      pos.board (pos.turn.homeRow, c) = none) : pos.board m.target = none := by
  rw [target]
  apply path <;> cases wing <;> decide

/-- No man goes to a square held by its own side. -/
theorem Pseudo.free (pseudo : pos.Pseudo m) : ¬ pos.Own m.target := by
  have empty : pos.board m.target = none → ¬ pos.Own m.target := by
    rintro clear ⟨kind, there⟩
    rw [clear] at there
    cases there
  cases pseudo with
  | officer own notPawn reaches free => exact free
  | single own ahead clear => exact empty clear
  | double own start ahead jumped clear => exact empty clear
  | takes own reaches foe =>
    rintro ⟨kind, there⟩
    obtain ⟨kind', foe⟩ := foe
    rw [there] at foe
    exact absurd (congrArg Man.side (Option.some.inj foe)) (Side.ne_other _)
  | enPassant own reaches row passing clear => exact empty clear
  | castle wing right king rook source target path => exact empty (castle_target_free target path)

/-- A pawn advances one row, or two from its start row. -/
theorem Pseudo.pawn_row (pseudo : pos.Pseudo m)
    (pawn : pos.board m.source = some ⟨pos.turn, .pawn⟩) :
    m.target.1 = m.source.1 + pos.turn.forward ∨
      (m.source.1 = pos.turn.pawnRow ∧ m.target.1 = pos.turn.doubleRow ∧
        m.target.2 = m.source.2 ∧ pos.board m.target = none) := by
  cases pseudo with
  | officer own notPawn =>
    rw [own] at pawn
    cases pawn
    exact absurd rfl notPawn
  | single own ahead => exact Or.inl (by rw [ahead])
  | double own start ahead jumped clear =>
    refine Or.inr ⟨start, ?_, by rw [ahead], clear⟩
    rw [ahead, start]
    rfl
  | takes own reaches => exact Or.inl reaches.1
  | enPassant own reaches => exact Or.inl reaches.1
  | castle wing right king =>
    rw [king] at pawn
    cases pawn

/-- A pawn that reaches its last row names what it becomes. -/
theorem Pseudo.promotion (pseudo : pos.Pseudo m)
    (pawn : pos.board m.source = some ⟨pos.turn, .pawn⟩) : pos.Promotion m := by
  cases pseudo with
  | officer own notPawn =>
    rw [own] at pawn
    cases pawn
    exact absurd rfl notPawn
  | single own ahead clear promotion => exact promotion
  | double own start ahead =>
    intro last
    rw [ahead, start] at last
    exfalso
    dsimp only at last
    revert last
    cases pos.turn <;> decide
  | takes own reaches foe promotion => exact promotion
  | enPassant own reaches row =>
    intro last
    have forward : m.target.1 = m.source.1 + pos.turn.forward := reaches.1
    rw [forward, row] at last
    exfalso
    revert last
    cases pos.turn <;> decide
  | castle wing right king =>
    rw [king] at pawn
    cases pawn

/-- The man that arrives belongs to the side to move, and is its king when the king moves. -/
theorem Pseudo.arrives (pseudo : pos.Pseudo m) :
    ∃ kind, pos.arrives m = some ⟨pos.turn, kind⟩ ∧
      (kind = .king ↔ pos.board m.source = some ⟨pos.turn, .king⟩) := by
  unfold Position.arrives
  split
  · rename_i promoted
    obtain ⟨kind, named, promotes⟩ := pseudo.promotion promoted.1 promoted.2
    refine ⟨kind, by rw [named]; rfl, ?_⟩
    rw [promoted.1]
    rcases promotes with rfl | rfl | rfl | rfl <;> simp
  · obtain ⟨kind, own⟩ := pseudo.own
    exact ⟨kind, own, by simp [own]⟩

/-- A pawn that arrives was a pawn, and is not on its last row. -/
theorem Pseudo.arrives_pawn (pseudo : pos.Pseudo m) {side : Side}
    (pawn : pos.arrives m = some ⟨side, .pawn⟩) :
    side = pos.turn ∧ pos.board m.source = some ⟨pos.turn, .pawn⟩ ∧
      m.target.1 ≠ pos.turn.lastRow := by
  unfold Position.arrives at pawn
  split at pawn
  · rename_i promoted
    obtain ⟨kind, named, promotes⟩ := pseudo.promotion promoted.1 promoted.2
    rw [named] at pawn
    cases pawn
    rcases promotes with h | h | h | h <;> cases h
  · rename_i early
    obtain ⟨kind, own⟩ := pseudo.own
    rw [own] at pawn
    cases pawn
    exact ⟨rfl, own, fun last => early ⟨own, last⟩⟩

/-- A king that goes two columns castles. -/
theorem Pseudo.castles (pseudo : pos.Pseudo m) {wing : Wing} (castles : pos.castles m = some wing) :
    pos.rights pos.turn wing ∧ pos.board m.source = some ⟨pos.turn, .king⟩ ∧
      pos.board (pos.turn.homeRow, wing.corner) = some ⟨pos.turn, .rook⟩ ∧
      m.source = (pos.turn.homeRow, 4) ∧ m.target = (pos.turn.homeRow, 4 + 2 * wing.step) ∧
      (∀ c, 0 < (c - 4) * wing.step → 0 < (wing.corner - c) * wing.step →
        pos.board (pos.turn.homeRow, c) = none) := by
  unfold Position.castles at castles
  cases pseudo with
  | officer own notPawn reaches =>
    split at castles
    · rename_i king
      rw [own] at king
      simp only [Option.some.injEq, Man.mk.injEq, true_and] at king
      subst king
      obtain ⟨-, -, near⟩ := reaches
      split at castles
      · omega
      · split at castles
        · omega
        · cases castles
    · cases castles
  | single own | double own | takes own | enPassant own => simp [own] at castles
  | castle wing' right king rook source target path safe =>
    have same : wing' = wing := by
      rw [if_pos king, source, target] at castles
      cases wing' <;> simp [Wing.step] at castles <;> exact castles
    subst same
    exact ⟨right, king, rook, source, target, path⟩

/-- Only the pawn that has just made a double step is taken in passing. -/
theorem Pseudo.casualty (wf : pos.WellFormed) (pseudo : pos.Pseudo m) {s : Square}
    (casualty : pos.casualty m = some s) :
    s = (m.source.1, m.target.2) ∧ m.source.1 = pos.turn.other.doubleRow ∧
      pos.board s = some ⟨pos.turn.other, .pawn⟩ := by
  unfold Position.casualty at casualty
  split at casualty
  swap
  · cases casualty
  rename_i taking
  obtain ⟨pawn, beside, clear⟩ := taking
  cases casualty
  refine ⟨rfl, ?_⟩
  cases pseudo with
  | officer own notPawn =>
    rw [own] at pawn
    cases pawn
    exact absurd rfl notPawn
  | single own ahead => exact absurd (by rw [ahead]) beside
  | double own start ahead => exact absurd (by rw [ahead]) beside
  | takes own reaches foe =>
    obtain ⟨kind, there⟩ := foe
    rw [clear] at there
    cases there
  | enPassant own reaches row passing => exact ⟨row, by rw [row]; exact wf.passing _ passing⟩
  | castle wing right king =>
    rw [king] at pawn
    cases pawn

/-- A square the move does not concern keeps its man. -/
theorem boardAfter_eq {s : Square} (target : s ≠ m.target) (source : s ≠ m.source)
    (casualty : pos.casualty m ≠ some s)
    (castles : ∀ wing, pos.castles m = some wing →
      s ≠ (m.source.1, m.source.2 + wing.step) ∧ s ≠ (m.source.1, wing.corner)) :
    pos.boardAfter m s = pos.board s := by
  unfold boardAfter
  rw [if_neg target, if_neg (not_or.mpr ⟨source, casualty⟩)]
  cases found : pos.castles m with
  | none => rfl
  | some wing =>
    obtain ⟨middle, corner⟩ := castles wing found
    dsimp only
    rw [if_neg middle, if_neg corner]

/-- A man on the board after a move is the one that arrived, the castling rook, or one that
stood there before. -/
theorem Pseudo.after_some (pseudo : pos.Pseudo m) {s : Square} {man : Man}
    (there : pos.boardAfter m s = some man) :
    (s = m.target ∧ pos.arrives m = some man) ∨
      (∃ wing, pos.castles m = some wing ∧ s = (pos.turn.homeRow, 4 + wing.step) ∧
        man = ⟨pos.turn, .rook⟩) ∨
      (s ≠ m.target ∧ s ≠ m.source ∧ pos.casualty m ≠ some s ∧ pos.board s = some man) := by
  unfold boardAfter at there
  split at there
  · rename_i target
    exact Or.inl ⟨target, there⟩
  rename_i notTarget
  split at there
  · cases there
  rename_i kept
  push Not at kept
  cases castles : pos.castles m with
  | none =>
    rw [castles] at there
    exact Or.inr (Or.inr ⟨notTarget, kept.1, kept.2, there⟩)
  | some wing =>
    rw [castles] at there
    obtain ⟨-, -, rook, source, -, -⟩ := pseudo.castles castles
    dsimp only at there
    rw [source] at there
    split at there
    · rename_i middle
      rw [rook] at there
      exact Or.inr (Or.inl ⟨wing, rfl, middle, (Option.some.inj there).symm⟩)
    split at there
    · cases there
    · exact Or.inr (Or.inr ⟨notTarget, kept.1, kept.2, there⟩)

/-- The men of the opponent stay where they are, unless they are taken. -/
theorem Pseudo.after_foe (pseudo : pos.Pseudo m) {s : Square} {kind : Kind} :
    pos.boardAfter m s = some ⟨pos.turn.other, kind⟩ ↔
      pos.board s = some ⟨pos.turn.other, kind⟩ ∧ s ≠ m.target ∧ pos.casualty m ≠ some s := by
  constructor
  · intro there
    rcases pseudo.after_some there with ⟨-, arrived⟩ | ⟨wing, -, -, rook⟩ |
      ⟨target, -, alive, stood⟩
    · obtain ⟨kind', arrives, -⟩ := pseudo.arrives
      rw [arrives] at arrived
      exact absurd (congrArg Man.side (Option.some.inj arrived)) (Side.ne_other _)
    · exact absurd (congrArg Man.side rook) (Side.other_ne _)
    · exact ⟨stood, target, alive⟩
  · rintro ⟨stood, target, alive⟩
    have source : s ≠ m.source := by
      rintro rfl
      obtain ⟨kind', own⟩ := pseudo.own
      rw [own] at stood
      exact absurd (congrArg Man.side (Option.some.inj stood)) (Side.ne_other _)
    rw [boardAfter_eq target source alive, stood]
    intro wing castles
    obtain ⟨-, -, rook, home, -, path⟩ := pseudo.castles castles
    rw [home]
    constructor <;> rintro rfl
    · have clear := path (4 + wing.step) (by cases wing <;> decide) (by cases wing <;> decide)
      rw [clear] at stood
      cases stood
    · rw [rook] at stood
      exact absurd (congrArg Man.side (Option.some.inj stood)) (Side.ne_other _)

/-- The king of the side that moves stands where it stood, unless it is the man that moved. -/
theorem Pseudo.after_king (wf : pos.WellFormed) (pseudo : pos.Pseudo m) {s : Square} :
    pos.boardAfter m s = some ⟨pos.turn, .king⟩ ↔
      (s = m.target ∧ pos.board m.source = some ⟨pos.turn, .king⟩) ∨
        (pos.board m.source ≠ some ⟨pos.turn, .king⟩ ∧ pos.board s = some ⟨pos.turn, .king⟩) := by
  obtain ⟨kind, arrives, isKing⟩ := pseudo.arrives
  constructor
  · intro there
    rcases pseudo.after_some there with ⟨target, arrived⟩ | ⟨wing, -, -, rook⟩ |
      ⟨target, source, -, stood⟩
    · rw [arrives] at arrived
      cases arrived
      exact Or.inl ⟨target, isKing.mp rfl⟩
    · cases rook
    · exact Or.inr ⟨fun king => source (wf.lone _ _ _ stood king), stood⟩
  · rintro (⟨rfl, king⟩ | ⟨notKing, stood⟩)
    · rw [boardAfter, if_pos rfl, arrives, isKing.mpr king]
    · have target : s ≠ m.target := by
        rintro rfl
        exact pseudo.free ⟨_, stood⟩
      have source : s ≠ m.source := by
        rintro rfl
        exact notKing stood
      have alive : pos.casualty m ≠ some s := by
        intro casualty
        obtain ⟨-, -, pawn⟩ := pseudo.casualty wf casualty
        rw [stood] at pawn
        exact Kind.noConfusion (congrArg Man.kind (Option.some.inj pawn))
      rw [boardAfter_eq target source alive, stood]
      intro wing castles
      exact absurd (pseudo.castles castles).2.1 notKing

/-- No move takes a king, since its side would have left it in check. -/
theorem Pseudo.spares_king (wf : pos.WellFormed) (pseudo : pos.Pseudo m) :
    pos.board m.target ≠ some ⟨pos.turn.other, .king⟩ := by
  intro king
  have check : ∀ {kind : Kind}, pos.board m.source = some ⟨pos.turn, kind⟩ →
      Reaches pos.board ⟨pos.turn, kind⟩ m.source m.target → False := by
    intro kind own reaches
    refine wf.safe ⟨_, king, m.source, kind, ?_, ?_⟩ <;> rw [Side.other_other]
    · exact own
    · exact reaches
  have taken : pos.board m.target = none → False := by
    intro clear
    rw [clear] at king
    cases king
  cases pseudo with
  | officer own notPawn reaches => exact check own reaches
  | single own ahead clear => exact taken clear
  | double own start ahead jumped clear => exact taken clear
  | takes own reaches => exact check own reaches
  | enPassant own reaches row passing clear => exact taken clear
  | castle wing right own rook source target path => exact taken (castle_target_free target path)

end After

/-! ## Well-formedness -/

section WellFormed

variable {pos : Position} {m : Ply}

/-- Each side has exactly one king after any move. -/
theorem Pseudo.kings (wf : pos.WellFormed) (pseudo : pos.Pseudo m) (side : Side) :
    ∃ s, ∀ t, pos.boardAfter m t = some ⟨side, .king⟩ ↔ t = s := by
  rcases Side.eq_or_other pos.turn side with rfl | rfl
  · by_cases king : pos.board m.source = some ⟨pos.turn, .king⟩
    · refine ⟨m.target, fun t => ?_⟩
      rw [pseudo.after_king wf]
      simp [king]
    · obtain ⟨s, there⟩ := wf.king pos.turn
      refine ⟨s, fun t => ?_⟩
      rw [pseudo.after_king wf]
      simp only [king, and_false, ne_eq, not_false_eq_true, true_and, false_or]
      exact ⟨fun stood => wf.lone _ _ _ stood there, fun same => same ▸ there⟩
  · obtain ⟨s, there⟩ := wf.king pos.turn.other
    refine ⟨s, fun t => ?_⟩
    rw [pseudo.after_foe]
    constructor
    · rintro ⟨stood, -⟩
      exact wf.lone _ _ _ stood there
    · rintro rfl
      refine ⟨there, ?_, ?_⟩
      · rintro rfl
        exact pseudo.spares_king wf there
      · intro casualty
        have pawn := (pseudo.casualty wf casualty).2.2
        rw [there] at pawn
        exact Kind.noConfusion (congrArg Man.kind (Option.some.inj pawn))

/-- A right that survives keeps its king and its rook. -/
theorem Pseudo.untouched (wf : pos.WellFormed) (pseudo : pos.Pseudo m) {side : Side} {wing : Wing}
    {s : Square} {kind : Kind} (right : pos.rights side wing)
    (king : ¬ m.Touches (side.homeRow, 4)) (untouched : ¬ m.Touches s) (row : s.1 = side.homeRow)
    (officer : kind ≠ .pawn) (stood : pos.board s = some ⟨side, kind⟩) :
    pos.boardAfter m s = some ⟨side, kind⟩ := by
  unfold Ply.Touches at king untouched
  rw [boardAfter_eq (fun h => untouched (Or.inr h.symm)) (fun h => untouched (Or.inl h.symm)),
    stood]
  · intro casualty
    have pawn := (pseudo.casualty wf casualty).2.2
    rw [stood] at pawn
    cases pawn
    exact officer rfl
  · intro wing' castles
    obtain ⟨-, own, -, home, -, -⟩ := pseudo.castles castles
    have rows : pos.turn.homeRow ≠ side.homeRow := by
      intro same
      exact king (Or.inl (by rw [home, same]))
    rw [home]
    constructor <;> rintro rfl <;> exact rows row

/-- The pawn that has just advanced two squares stands where it arrived. -/
theorem Pseudo.passing_stands (pseudo : pos.Pseudo m) {c : Int}
    (passing : (pos.play m).passing = some c) :
    pos.boardAfter m (pos.turn.doubleRow, c) = some ⟨pos.turn, .pawn⟩ := by
  unfold Position.play at passing
  dsimp only at passing
  split at passing
  swap
  · cases passing
  rename_i two
  cases passing
  obtain ⟨pawn, rows⟩ := two
  have step : pos.turn.forward = -1 ∨ pos.turn.forward = 1 := by cases pos.turn <;> decide
  obtain one | ⟨start, row, column, clear⟩ := pseudo.pawn_row pawn
  · omega
  have here : (pos.turn.doubleRow, m.target.2) = m.target := Prod.ext row.symm rfl
  rw [here, boardAfter, if_pos rfl, Position.arrives, if_neg, pawn]
  rintro ⟨-, last⟩
  rw [row] at last
  revert last
  cases pos.turn <;> decide

/-- Legal moves keep positions well formed. -/
theorem WellFormed.play (wf : pos.WellFormed) (legal : pos.Legal m) : (pos.play m).WellFormed := by
  obtain ⟨insideS, insideT, pseudo, safe⟩ := legal
  refine ⟨?_, ?_, ?_, ?_, ?_, ?_, ?_⟩
  · intro s man there
    rcases pseudo.after_some there with ⟨rfl, -⟩ | ⟨wing, castles, rfl, -⟩ | ⟨-, -, -, stood⟩
    · exact insideT
    · constructor <;> dsimp only
      · cases pos.turn <;> decide
      · cases wing <;> decide
    · exact wf.inside s man stood
  · intro side
    obtain ⟨s, king⟩ := pseudo.kings wf side
    exact ⟨s, (king s).mpr rfl⟩
  · intro side s t first second
    obtain ⟨u, king⟩ := pseudo.kings wf side
    exact ((king s).mp first).trans ((king t).mp second).symm
  · show ¬ InCheck (pos.boardAfter m) pos.turn.other.other
    rw [Side.other_other]
    exact safe
  · rintro side wing ⟨right, king, corner⟩
    obtain ⟨home, rook⟩ := wf.rights side wing right
    exact ⟨pseudo.untouched wf right king king rfl (by decide) home,
      pseudo.untouched wf right king corner rfl (by decide) rook⟩
  · intro c passing
    show pos.boardAfter m (pos.turn.other.other.doubleRow, c) = some ⟨pos.turn.other.other, .pawn⟩
    rw [Side.other_other]
    exact pseudo.passing_stands passing
  · intro s side there
    rcases pseudo.after_some there with ⟨rfl, arrived⟩ | ⟨wing, -, -, rook⟩ | ⟨-, -, -, stood⟩
    · obtain ⟨-, pawn, early⟩ := pseudo.arrives_pawn arrived
      have source := wf.pawns _ _ pawn
      have low := insideS.1
      have rows := pseudo.pawn_row pawn
      have high := insideT.1
      revert early rows
      cases pos.turn <;>
        simp only [Side.lastRow, Side.homeRow, Side.other, Side.forward, Side.pawnRow,
          Side.doubleRow] <;> omega
    · cases rook
    · exact wf.pawns s side stood

end WellFormed

end Position
end Rules
