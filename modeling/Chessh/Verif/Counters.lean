import Chessh.Verif.Effect

/-!
# What the counters of a piece mean

Castling and en passant are decided from the counters of single pieces. These are the
facts about a whole game that make the counters say what the tests take them to say: an
unmoved piece is an original piece on its own square, and a pawn that moved once and stands
two rows from its start got there in one step.
-/

namespace Chessh

/-! ## Accepting verdicts -/

/-- Only a pawn that stays a pawn arrives as one. -/
theorem Judged.pawn_arrival {g : Game} {m : Move} {player : Player} {v : Verdict}
    (judged : Judged g m player v) (ok : 0 ≤ v.code) (pawn : arrivalType g m = .pawn) :
    (g.get m.rI m.cI).type = .pawn ∧ ¬ LastRow g m ∧ PawnGoes g m v.captured := by
  unfold arrivalType at pawn
  cases judged with
  | refused | unpromoted | stopped => simp [Verdict.plain, illegalMove, missingPromotion] at ok
  | officer mine kind hit =>
    rw [if_neg fun h => kind h.1] at pawn
    exact absurd pawn kind
  | pawn mine kind goes early => exact ⟨kind, early, pawnGoes_iff.mp goes⟩
  | promoted mine kind goes last named =>
    rw [if_pos ⟨kind, last⟩] at pawn
    rw [pawn] at named
    exact Bool.noConfusion named
  | castled mine kind castling empty safe passing arriving =>
    rw [if_neg fun h => PieceType.noConfusion (kind.symm.trans h.1), kind] at pawn
    exact PieceType.noConfusion pawn

/-! ## Squares after a call -/

/-- An unmoved piece has been there all along. -/
theorem Made.unmoved {g : Game} {m : Move} {code : Int} {after : Game} (sound : Sound g)
    (made : Made g m code after) {r c : Int} (full : (after.get r c).type ≠ .empty)
    (unmoved : (after.get r c).moves = 0) : after.get r c = g.get r c := by
  rcases made.effect sound with ⟨-, scribbled⟩ | ⟨-, v, landing, -, -, -, landed, -, scribbled⟩
  · exact scribbled.unmoved full unmoved
  · have same := scribbled.unmoved full unmoved
    rw [same] at full unmoved ⊢
    exact landed.unmoved sound full unmoved

/-- A pawn has been there all along, or has just gone there. -/
theorem Made.pawn {g : Game} {m : Move} {code : Int} {after : Game} (sound : Sound g)
    (made : Made g m code after) {r c : Int} (pawn : (after.get r c).type = .pawn) :
    after.get r c = g.get r c ∨
      (Accepted code ∧ (r = m.rF ∧ c = m.cF) ∧ Mine g m (getPlayer g) ∧
        (g.get m.rI m.cI).type = .pawn ∧ ¬ LastRow g m ∧ (∃ captured, PawnGoes g m captured) ∧
        after.get r c = { g.get m.rI m.cI with
          moves := (g.get m.rI m.cI).moves + 1, lastMove := g.duration + 1 }) := by
  rcases made.effect sound with
    ⟨-, scribbled⟩ | ⟨accepted, v, landing, judged, ok, -, landed, -, scribbled⟩
  · exact Or.inl (scribbled.pawn pawn)
  have same := scribbled.pawn pawn
  rw [same] at pawn ⊢
  rcases landed.square r c with ⟨rfl, rfl⟩ | ⟨a, columns, rfl⟩ | emptied | kept
  · have arrives := landed.target
    rw [arrives] at pawn
    obtain ⟨kind, early, goes⟩ := judged.pawn_arrival ok pawn
    refine Or.inr ⟨accepted, ⟨rfl, rfl⟩, judged.mine ok, kind, early, ⟨_, goes⟩, ?_⟩
    rw [arrives, arrivalType, if_neg fun h => early h.2]
  · obtain ⟨cc, castling, -⟩ := judged.castling ok columns
    rw [landed.rookTarget a c columns] at pawn
    exact PieceType.noConfusion (castling.rook.symm.trans pawn)
  · rw [emptied] at pawn
    exact PieceType.noConfusion pawn
  · exact Or.inl kept

/-! ## Castlings -/

/-- The king rule asks for a second move only where the board allows castling. -/
theorem kingIsIllegal_castle (attacked : Game → Int → Int → Player → Option (Bool × Game))
    {g : Game} {m : Move} {v : Verdict} (onS : OnBoard m.rI m.cI)
    (asked : kingIsIllegal attacked g m = some v) (second : v.castle.rI ≠ -1) :
    ∃ cc stop, Castling g m cc stop ∧ v.castle = ⟨m.rI, stop, m.rI, m.cI + cc, .empty⟩ := by
  by_cases near : (m.rF - m.rI).natAbs ≤ 1 ∧ (m.cF - m.cI).natAbs ≤ 1
  · rw [kingIsIllegal_near attacked near] at asked
    cases asked
    exact absurd rfl second
  by_cases allowed : ∃ cc stop, Castling g m cc stop
  · obtain ⟨cc, stop, castling⟩ := allowed
    refine ⟨cc, stop, castling, ?_⟩
    rw [kingIsIllegal_castling attacked onS castling] at asked
    obtain ⟨⟨hit, after⟩, -, asked⟩ := Option.bind_eq_some_iff.mp asked
    cases hit with
    | true =>
      cases asked
      exact absurd rfl second
    | false =>
      cases asked
      rfl
  · rw [kingIsIllegal_far attacked onS near fun cc stop castling => allowed ⟨cc, stop, castling⟩]
      at asked
    cases asked
    exact absurd rfl second

/-! ## Along a run -/

/-- In the calls so far a pawn of the player went from its start row to the square in one
double step, and stands there still. -/
def DoubleStepped (start : Game) (calls : List (Move × Int)) (g : Game) (home r c : Int)
    (player : Player) : Prop :=
  ∃ before m code later board landed, calls = before ++ (m, code) :: later ∧
    Run start before board ∧ Returns board m code landed ∧ Accepted code ∧
    m.rI = home ∧ m.cI = c ∧ m.rF = r ∧ m.cF = c ∧
    (board.get home c).type = .pawn ∧ (board.get home c).player = player ∧
    (board.get home c).moves = 0 ∧ landed.get r c = g.get r c

/-- A later call that leaves the square alone keeps the double step. -/
theorem DoubleStepped.later {start : Game} {calls : List (Move × Int)} {g after : Game}
    {home r c : Int} {player : Player} (stepped : DoubleStepped start calls g home r c player)
    (call : Move × Int) (kept : after.get r c = g.get r c) :
    DoubleStepped start (calls ++ [call]) after home r c player := by
  obtain ⟨before, m, code, later, board, landed, rfl, run, returns, accepted, rI, cI, rF, cF,
    pawn, owner, unmoved, still⟩ := stepped
  exact ⟨before, m, code, later ++ [call], board, landed, by simp, run, returns, accepted,
    rI, cI, rF, cF, pawn, owner, unmoved, still.trans kept.symm⟩

/-- Along a run from a new game an unmoved piece is the original piece of its square. -/
theorem Run.unmoved {memory g : Game} {calls : List (Move × Int)}
    (run : Run (newGame memory) calls g) {r c : Int} (full : (g.get r c).type ≠ .empty)
    (unmoved : (g.get r c).moves = 0) : g.get r c = (newGame memory).get r c := by
  induction run with
  | start => rfl
  | step run returns ih =>
    have sound := run.sound (newGame_sound memory)
    have same := (returns.made sound).unmoved sound full unmoved
    rw [same] at full unmoved ⊢
    exact ih full unmoved

/-- A pawn that does not reach its last row does not reach its first one either. -/
theorem pawnGoes_inside {g : Game} {m : Move} {captured : Option (Int × Int)}
    (mine : Mine g m (getPlayer g)) (source : m.rI ≠ 0 ∧ m.rI ≠ 7) (early : ¬ LastRow g m)
    (goes : pawnGoes g m = some captured) : m.rF ≠ 0 ∧ m.rF ≠ 7 := by
  obtain ⟨below, above⟩ := source
  have on := mine.onS.1
  have on' := mine.onT.1
  have rows := pawnGoes_rows goes
  unfold LastRow at early
  rw [mine.owner] at early rows
  rcases getPlayer_known g with white | black
  · simp only [white, direction, ↓reduceIte] at rows
    simp only [white, true_and, reduceCtorEq, false_and, or_false] at early
    omega
  · simp only [black, direction, reduceCtorEq, ↓reduceIte] at rows
    simp only [black, true_and, reduceCtorEq, false_and, false_or] at early
    omega

/-- Along a run from a new game no pawn stands on an outer row. -/
theorem Run.pawn_rows {memory g : Game} {calls : List (Move × Int)}
    (run : Run (newGame memory) calls g) {r c : Int} (pawn : (g.get r c).type = .pawn) :
    r ≠ 0 ∧ r ≠ 7 := by
  induction run generalizing r c with
  | start =>
    have rows : ∀ i j : Fin 8, newType i j = .pawn → i.val = 1 ∨ i.val = 6 := by decide
    obtain ⟨i, j, rfl, rfl⟩ :=
      (onBoard_of_type_ne_empty (g := newGame memory) (by rw [pawn]; decide)).exists_fin
    rw [newGame_get] at pawn
    have := rows i j pawn
    omega
  | @step calls g m code after run returns ih =>
    have sound := run.sound (newGame_sound memory)
    rcases (returns.made sound).pawn sound pawn with
      kept | ⟨-, ⟨rfl, rfl⟩, mine, kind, early, ⟨captured, goes⟩, -⟩
    · rw [kept] at pawn
      exact ih pawn
    exact pawnGoes_inside mine (ih kind) early (pawnGoes_iff.mpr goes)

/-- Along a run from a new game a pawn that moved once and stands two rows from its start
row came by a double step. -/
theorem Run.double_stepped {memory g : Game} {calls : List (Move × Int)}
    (run : Run (newGame memory) calls g) {home r c : Int} {player : Player}
    (start : (player = .white ∧ home = 6) ∨ (player = .black ∧ home = 1))
    (row : r = home + direction player * 2) (pawn : (g.get r c).type = .pawn)
    (owner : (g.get r c).player = player) (once : (g.get r c).moves = 1) :
    DoubleStepped (newGame memory) calls g home r c player := by
  induction run with
  | start =>
    exfalso
    have on :=
      onBoard_of_type_ne_empty (g := newGame memory) (r := r) (c := c) (by rw [pawn]; decide)
    obtain ⟨i, j, rfl, rfl⟩ := on.exists_fin
    rw [newGame_get] at once
    exact absurd once Int.zero_ne_one
  | @step calls g m code after run returns ih =>
    have sound := run.sound (newGame_sound memory)
    rcases (returns.made sound).pawn sound pawn with
      kept | ⟨accepted, ⟨hr, hc⟩, mine, kind, early, ⟨captured, goes⟩, arrived⟩
    · rw [kept] at pawn owner once
      exact (ih pawn owner once).later _ kept
    rw [arrived] at owner once
    have owner : (g.get m.rI m.cI).player = player := owner
    have unmoved : (g.get m.rI m.cI).moves = 0 := by
      dsimp only at once
      omega
    -- the pawn had not moved, so it started from its start row
    have source : m.rI = home := by
      have rows := sound.pawn m.rI m.cI kind unmoved
      rcases start with ⟨rfl, rfl⟩ | ⟨rfl, rfl⟩
      · exact rows.1 owner
      · exact rows.2 owner
    have column : m.cF = m.cI := by
      have step := direction_eq player
      cases goes with
      | step straight | double straight => exact straight
      | takes _ one | passing _ one =>
        rw [owner] at one
        omega
    refine ⟨calls, m, code, [], g, after, by simp, run, returns, accepted, source,
      by rw [hc, column], hr.symm, hc.symm, ?_, ?_, ?_, rfl⟩
    all_goals rw [← source, hc, column]
    · exact kind
    · exact owner
    · exact unmoved

/-- The square of a king in a new game. -/
theorem newGame_king {memory : Game} {r c : Int} (king : ((newGame memory).get r c).type = .king) :
    c = 4 ∧ ((r = 0 ∧ ((newGame memory).get r c).player = .black) ∨
      (r = 7 ∧ ((newGame memory).get r c).player = .white)) := by
  have squares : ∀ i j : Fin 8, newType i j = .king → j.val = 4 ∧ (i.val = 0 ∨ i.val = 7) := by
    decide
  obtain ⟨i, j, rfl, rfl⟩ :=
    (onBoard_of_type_ne_empty (g := newGame memory) (by rw [king]; decide)).exists_fin
  rw [newGame_get] at king ⊢
  obtain ⟨col, row⟩ := squares i j king
  refine ⟨by omega, ?_⟩
  rcases row with row | row <;> simp [row]

/-- Along a run from a new game, castling is a matter of an original king on the middle
square of its home row and an original rook of the same player in a corner of that row. -/
theorem Run.castling {memory g : Game} {calls : List (Move × Int)}
    (run : Run (newGame memory) calls g) {m : Move} {cc stop : Int}
    (king : (g.get m.rI m.cI).type = .king) (castling : Castling g m cc stop) :
    m.cI = 4 ∧ (stop = 0 ∨ stop = 7) ∧ (g.get m.rI stop).player = (g.get m.rI m.cI).player ∧
      ((m.rI = 0 ∧ (g.get m.rI m.cI).player = .black) ∨
        (m.rI = 7 ∧ (g.get m.rI m.cI).player = .white)) := by
  have home := run.unmoved (by rw [king]; decide) castling.unmoved
  have corner := (run.sound (newGame_sound memory)).rook _ _ castling.rook castling.still
  rw [home] at king ⊢
  obtain ⟨column, row⟩ := newGame_king king
  refine ⟨column, corner.1, ?_, row⟩
  rcases row with ⟨zero, black⟩ | ⟨seven, white⟩
  · rw [black]
    exact (corner.2.resolve_right fun h => by omega).2
  · rw [white]
    exact (corner.2.resolve_left fun h => by omega).2

/-- The counters of a game mean what castling and en passant take them to mean. -/
theorem Run.counters_meaning {memory g : Game} {calls : List (Move × Int)}
    (run : Run (newGame memory) calls g) :
    (∀ r c, (g.get r c).type ≠ .empty → (g.get r c).moves = 0 →
      (g.get r c).type = ((newGame memory).get r c).type ∧
      (g.get r c).player = ((newGame memory).get r c).player) ∧
    (∀ r c, (g.get r c).type = .pawn → r ≠ 0 ∧ r ≠ 7) ∧
    (∀ c, (g.get 4 c).type = .pawn → (g.get 4 c).player = .white → (g.get 4 c).moves = 1 →
      DoubleStepped (newGame memory) calls g 6 4 c .white) ∧
    (∀ c, (g.get 3 c).type = .pawn → (g.get 3 c).player = .black → (g.get 3 c).moves = 1 →
      DoubleStepped (newGame memory) calls g 1 3 c .black) ∧
    (∀ m depth v, OnBoard m.rI m.cI → (g.get m.rI m.cI).type = .king →
      kingIsIllegal (pieceIsAttacked depth) g m = some v → 0 ≤ v.code → v.castle.rI ≠ -1 →
      m.cI = 4 ∧
      ((m.rI = 0 ∧ (g.get m.rI m.cI).player = .black) ∨
        (m.rI = 7 ∧ (g.get m.rI m.cI).player = .white)) ∧
      v.castle.rI = m.rI ∧ (v.castle.cI = 0 ∨ v.castle.cI = 7) ∧
      (g.get v.castle.rI v.castle.cI).type = .rook ∧
      g.get v.castle.rI v.castle.cI = (newGame memory).get v.castle.rI v.castle.cI ∧
      (g.get v.castle.rI v.castle.cI).player = (g.get m.rI m.cI).player) := by
  refine ⟨fun r c full unmoved => ?_, fun r c pawn => run.pawn_rows pawn,
    fun c pawn owner once => run.double_stepped (Or.inl ⟨rfl, rfl⟩) rfl pawn owner once,
    fun c pawn owner once => run.double_stepped (Or.inr ⟨rfl, rfl⟩) rfl pawn owner once,
    fun m depth v on king asked _ second => ?_⟩
  · rw [run.unmoved full unmoved]
    exact ⟨rfl, rfl⟩
  · obtain ⟨cc, stop, castling, castle⟩ := kingIsIllegal_castle _ on asked second
    obtain ⟨column, corner, owner, home⟩ := run.castling king castling
    rw [castle]
    exact ⟨column, home, rfl, corner, castling.rook,
      run.unmoved (by rw [castling.rook]; decide) castling.still, owner⟩

/-- The facts about counters, after White's double step and a refused reply. -/
theorem counters_meaning_opening :
    let calls := (replay (newGame blank) [⟨6, 4, 4, 4, .empty⟩, ⟨0, 4, 2, 4, .empty⟩]).1
    let g := (replay (newGame blank) [⟨6, 4, 4, 4, .empty⟩, ⟨0, 4, 2, 4, .empty⟩]).2
    calls.map Prod.snd = [0, illegalMove] ∧
      DoubleStepped (newGame blank) calls g 6 4 4 .white ∧
      (g.get 0 4).player = ((newGame blank).get 0 4).player := by
  have facts := Run.counters_meaning (Run.start.replayed (newGame_sound blank)
    [⟨6, 4, 4, 4, .empty⟩, ⟨0, 4, 2, 4, .empty⟩])
  have stands :
    (replay (newGame blank) [⟨6, 4, 4, 4, .empty⟩, ⟨0, 4, 2, 4, .empty⟩]).1.map Prod.snd =
        [0, illegalMove] ∧
      ((replay (newGame blank) [⟨6, 4, 4, 4, .empty⟩, ⟨0, 4, 2, 4, .empty⟩]).2.get 4 4) =
        ⟨.pawn, .white, 1, 1⟩ ∧
      ((replay (newGame blank) [⟨6, 4, 4, 4, .empty⟩,
        ⟨0, 4, 2, 4, .empty⟩]).2.get 0 4).type ≠ .empty ∧
      ((replay (newGame blank) [⟨6, 4, 4, 4, .empty⟩,
        ⟨0, 4, 2, 4, .empty⟩]).2.get 0 4).moves = 0 := by
    decide +kernel
  obtain ⟨codes, pawn, full, unmoved⟩ := stands
  refine ⟨codes, ?_, (facts.1 0 4 full unmoved).2⟩
  exact facts.2.2.1 4 (congrArg Piece.type pawn) (congrArg Piece.player pawn)
    (congrArg Piece.moves pawn)

end Chessh
